import ClawHdf5.Merkle.Soundness

/-!
# Appending and overwriting chunks

`extendMerkle` and `updateMerkle` read the stored leaf row back, change it and store the
tree over the new row. Two things decide whether the result still verifies. The attribute is
rebuilt by a constructor that always declares content leaves and binds no grid. And the row
that is read back has every padded slot in it, because the number of chunks is not stored.
-/

namespace ClawHdf5.Merkle

open LevelOrder MachineInt Fallible List Dataset LeafFormat Except MerkleTree

/-! ### The mutators -/

/-- The stored leaves of a tree, in order. -/
def MerkleTree.leafHashes (t : MerkleTree) : List Hash :=
  (range t.leafCount).filterMap t.leafHash

/-- The leaf `updateMerkle` keeps in slot `i`. -/
def MerkleTree.replacedLeaf (t : MerkleTree) (idx : ℕ) (h : Hash) (i : ℕ) :
    Except MerkleError Hash :=
  if i = idx then .ok h else okOr .missingChunkGridMetadata (t.leafHash i)

/-- Rebuild the tree over `leafHashes` and store its nodes and its attribute. -/
def Dataset.storeTree (H : Hashers) (d : Dataset) (leafHashes : List Hash) : Dataset :=
  let newTree := MerkleTree.fromLeafHashes H leafHashes d.merkleAttr.algorithm
  { d with
    treeNodes := flatNodes newTree.nodes
    merkleAttr := MerkleAttr.fromTreeWithCompanion H newTree
      (computeSha256 H (flatNodes newTree.nodes)) }

/-- Append the leaf digest of a new chunk. -/
def extendMerkle (H : Hashers) (d : Dataset) (idx : ℕ) (h : Hash) :
    Except MerkleError Dataset := do
  reject (idx ≠ d.chunkCount) (.hyperslabOutOfBounds idx)
  let tree ← d.reconstructTree
  .ok (d.storeTree H (tree.leafHashes ++ [h]))

/-- Replace the leaf digest of an existing chunk. -/
def updateMerkle (H : Hashers) (d : Dataset) (idx : ℕ) (h : Hash) :
    Except MerkleError Dataset := do
  reject (idx ≥ d.chunkCount) (.hyperslabOutOfBounds idx)
  let tree ← d.reconstructTree
  let leafHashes ← traverseIdx (fun i _ => tree.replacedLeaf idx h i) 0 (range tree.leafCount)
  .ok (d.storeTree H leafHashes)

/-- The caller's half of an append: the chunk and, for bound leaves, its version. -/
def Dataset.pushChunk (d : Dataset) (chunk : Bytes) (version : UInt64) : Dataset :=
  { d with
    chunks := d.chunks ++ [chunk]
    chunkVersions :=
      if d.merkleAttr.leafFormat.needsVersions then d.chunkVersions ++ [version]
      else d.chunkVersions }

/-- The caller's half of an overwrite. -/
def Dataset.replaceChunk (d : Dataset) (idx : ℕ) (chunk : Bytes) (version : UInt64) : Dataset :=
  { d with
    chunks := d.chunks.set idx chunk
    chunkVersions :=
      if d.merkleAttr.leafFormat.needsVersions then d.chunkVersions.set idx version
      else d.chunkVersions }

/-- The chunks and versions of `e` under the attribute and nodes of `d`. -/
def Dataset.withData (d e : Dataset) : Dataset :=
  { d with chunks := e.chunks, chunkVersions := e.chunkVersions }

/-! ### What is stored -/

section

variable {H : Hashers} {d e : Dataset} {t : MerkleTree} {leaves : List Hash} {idx : ℕ} {h : Hash}

@[simp] theorem Dataset.storeTree_algorithm :
    (d.storeTree H leaves).merkleAttr.algorithm = d.merkleAttr.algorithm :=
  fromLeafHashes_alg H leaves _

@[simp] theorem Dataset.storeTree_withData_algorithm :
    ((d.storeTree H leaves).withData e).merkleAttr.algorithm = d.merkleAttr.algorithm :=
  storeTree_algorithm

@[simp] theorem Dataset.storeTree_leafFormat :
    (d.storeTree H leaves).merkleAttr.leafFormat = .content := rfl

@[simp] theorem Dataset.storeTree_gridHash :
    (d.storeTree H leaves).merkleAttr.gridHash = zeroHash := rfl

theorem Dataset.storeTree_storesTree : StoresTree H ((d.storeTree H leaves).withData e) leaves where
  nodes := by
    rw [storeTree_withData_algorithm]
    rfl
  root := by
    rw [storeTree_withData_algorithm]
    rfl

theorem leafHashes_eq_map (ht : t.leafCount = t.paddedCount) :
    t.leafHashes = (range t.paddedCount).map fun i => label t.nodes (t.paddedCount + i) := by
  rw [leafHashes, ht, ← filterMap_eq_map]
  apply filterMap_congr
  intro i hi
  exact leafHash_eq_label ht (mem_range.mp hi)

@[simp] theorem length_leafHashes (ht : t.leafCount = t.paddedCount) :
    t.leafHashes.length = t.paddedCount := by
  simp [leafHashes_eq_map ht]

theorem extendMerkle_eq_ok {d' : Dataset} : extendMerkle H d idx h = .ok d' ↔
      idx = d.chunkCount ∧ ∃ t, d.reconstructTree = .ok t ∧
        d' = d.storeTree H (t.leafHashes ++ [h]) := by
  simp [extendMerkle, bind_ok_iff, eq_comm (b := d')]

theorem replacedLeaf_eq_ok (ht : t.leafCount = t.paddedCount) {i : ℕ} {y : Hash} :
    t.replacedLeaf idx h i = .ok y ↔ (i = idx ∨ i < t.paddedCount) ∧
        y = if i = idx then h else label t.nodes (t.paddedCount + i) := by
  unfold replacedLeaf
  by_cases hi : i = idx
  · simp [hi, eq_comm]
  · simp only [hi, if_false, okOr_eq_ok]
    by_cases hlt : i < t.paddedCount
    · simp [leafHash_eq_label ht hlt, hlt, eq_comm]
    · simp [leafHash, ht, not_lt.mp hlt]

/-- An update replaces one slot of the stored row. -/
theorem updateMerkle_eq_ok {d' : Dataset} : updateMerkle H d idx h = .ok d' ↔
      idx < d.chunkCount ∧ ∃ t, d.reconstructTree = .ok t ∧
        d' = d.storeTree H (t.leafHashes.set idx h) := by
  simp only [updateMerkle, bind_ok_iff, reject_eq_ok, exists_const, not_le]
  refine and_congr_right fun _ => exists_congr fun t => and_congr_right fun ht => ?_
  obtain ⟨-, -, hcount, -⟩ := reconstructTree_eq_ok.mp ht
  have hrow : ((range t.paddedCount).mapIdx fun i _ =>
      if 0 + i = idx then h else label t.nodes (t.paddedCount + (0 + i))) =
        t.leafHashes.set idx h := by
    apply ext_getElem
    · simp [hcount]
    · intro i hi hi'
      simp [leafHashes_eq_map hcount, getElem_set, eq_comm]
  simp only [traverseIdx_eq_ok fun i _ _ => replacedLeaf_eq_ok hcount, ok.injEq, hcount, hrow]
  constructor
  · rintro ⟨_, ⟨-, rfl⟩, rfl⟩
    rfl
  · rintro rfl
    exact ⟨_, ⟨fun i hi => .inr (by simpa using hi), rfl⟩, rfl⟩

/-- The stored row of a verified dataset starts with the digests of its chunks. -/
theorem getElem?_leafHashes (ht : t.leafCount = t.paddedCount)
    (hle : d.chunks.length ≤ t.paddedCount)
    (hstored : ∀ i < d.chunks.length,
      label t.nodes (t.paddedCount + i) = (d.leaves H).getD i default)
    {i : ℕ} (hi : i < d.chunks.length) : t.leafHashes[i]? = (d.leaves H)[i]? := by
  have hlt : i < t.paddedCount := by omega
  rw [leafHashes_eq_map ht, getElem?_map, getElem?_range hlt, Option.map_some,
    hstored i hi, getD_eq_getElem _ _ (by simpa using hi), getElem?_eq_getElem]

theorem getElem?_liveHashes {n i : ℕ} (hi : d.chunks.length ≤ i) (hn : i < n) :
    (d.liveHashes H n)[i]? = some (d.merkleAttr.algorithm.nullSentinel H) := by
  rw [liveHashes, getElem?_append_right (by simpa using hi),
    length_leaves, getElem?_replicate, if_pos (by omega)]

end

/-! ### The leaves after a mutation -/

section

variable {H : Hashers} {d e : Dataset} {leaves : List Hash} {idx : ℕ} {h : Hash}
  {chunk : Bytes} {version : UInt64}

variable (d e leaves) in
theorem storeTree_leaves_of_content (hfmt : e.merkleAttr.leafFormat = .content)
    (halg : e.merkleAttr.algorithm = d.merkleAttr.algorithm) :
    ((d.storeTree H leaves).withData e).leaves H = e.leaves H := by
  rw [Dataset.leaves, Dataset.leaves, Dataset.storeTree_withData_algorithm, halg, hfmt]
  rfl

theorem LeafFormat.preimage_congr {fmt : LeafFormat} {i : ℕ} {data : Bytes} {v v' : UInt64}
    (hv : fmt = .bound → v = v') : fmt.preimage i data v = fmt.preimage i data v' := by
  cases fmt with
  | content => rfl
  | bound => rw [hv rfl]

theorem length_pushChunk (d : Dataset) (chunk : Bytes) (version : UInt64) :
    (d.pushChunk chunk version).chunks.length = d.chunks.length + 1 :=
  length_append

theorem pushChunk_leaves (hversions : d.HasVersions)
    (hh : (d.pushChunk chunk version).leafHashFor H d.chunkCount chunk = .ok h) :
    (d.pushChunk chunk version).leaves H = d.leaves H ++ [h] := by
  obtain ⟨-, rfl⟩ := leafHashFor_eq_ok.mp hh
  rw [leaves_eq_mapIdx, leaves_eq_mapIdx]
  change (d.chunks ++ [chunk]).mapIdx _ = _
  rw [mapIdx_append]
  congr 1
  · apply ext_getElem
    · simp
    · intro i hi hi'
      simp only [length_mapIdx] at hi
      simp only [getElem_mapIdx]
      refine congrArg (d.merkleAttr.algorithm.hashRaw H) (preimage_congr fun hfmt => ?_)
      -- the earlier versions are where they were
      have hlt : i < d.chunkVersions.length := hi.trans_le (hversions hfmt)
      have hfmt' : d.merkleAttr.leafFormat = .bound := hfmt
      simp [pushChunk, hfmt', needsVersions, getElem?_append_left hlt]
  · simp [chunkCount]

theorem preimage_mem_pushChunk (d : Dataset) (chunk : Bytes) (version : UInt64) :
    (d.pushChunk chunk version).merkleAttr.leafFormat.preimage d.chunkCount chunk
      ((d.pushChunk chunk version).chunkVersions.getD d.chunkCount 0) ∈
        (d.pushChunk chunk version).livePreimages := by
  apply mem_of_getElem? (i := d.chunkCount)
  rw [livePreimages, getElem?_leafPreimages]
  simp [pushChunk, chunkCount]

theorem replaceChunk_leaves
    (hh : (d.replaceChunk idx chunk version).leafHashFor H idx chunk = .ok h) :
    (d.replaceChunk idx chunk version).leaves H = (d.leaves H).set idx h := by
  obtain ⟨-, rfl⟩ := leafHashFor_eq_ok.mp hh
  rw [leaves_eq_mapIdx, leaves_eq_mapIdx]
  apply ext_getElem
  · simp [replaceChunk]
  · intro i hi hi'
    by_cases heq : idx = i
    · subst heq
      simp [replaceChunk]
    · simp only [getElem_mapIdx, getElem_set, if_neg heq, replaceChunk]
      refine congrArg (d.merkleAttr.algorithm.hashRaw H) (preimage_congr fun hfmt => ?_)
      simp [hfmt, heq, needsVersions]

end

/-! ### Verification after a mutation -/

/-- The preimages of the inner nodes a dataset stores. -/
def Dataset.treePreimages (d : Dataset) : List Bytes :=
  match d.reconstructTree with
  | .error _ => []
  | .ok t => t.preimages

/-- What occurs when the data of `e` is verified under the mutated `d'`: the leaves of `e`
in its own format, the stored tree, and what `verifyDataset` hashes. -/
def mutationPreimages (H : Hashers) (e d' : Dataset) : List Bytes :=
  e.livePreimages ++ (d'.treePreimages ++ (d'.withData e).verifyPreimages H)

section

variable {H : Hashers} {d e : Dataset} {leaves : List Hash}

theorem nullPreimage_mem_verifyPreimages (hok : verifyDataset H d = .ok true) :
    nullPreimage ∈ d.verifyPreimages H := by
  obtain ⟨-, t, ht, -⟩ := verifyDataset_eq_ok.mp hok
  rw [verifyPreimages, ht]
  exact mem_append_right _ mem_cons_self

/-- After a mutation only the stored row itself verifies. -/
theorem storeTree_row_eq (hcf : CollisionFree (d.merkleAttr.algorithm.hashRaw H)
      (mutationPreimages H e (d.storeTree H leaves)))
    (hok : verifyDataset H ((d.storeTree H leaves).withData e) = .ok true) :
    paddedRow H leaves d.merkleAttr.algorithm =
      ((d.storeTree H leaves).withData e).liveHashes H (nextPowerOfTwo leaves.length) := by
  have hstores : StoresTree H ((d.storeTree H leaves).withData e) leaves := storeTree_storesTree
  have halg : ((d.storeTree H leaves).withData e).merkleAttr.algorithm =
      d.merkleAttr.algorithm := storeTree_withData_algorithm
  obtain ⟨t, ht, hnodes, -, hpadded, -⟩ := hstores.reconstructTree
  have htree : (d.storeTree H leaves).treePreimages =
      (fromLeafHashes H leaves d.merkleAttr.algorithm).preimages := by
    have ht' : (d.storeTree H leaves).reconstructTree = .ok t := ht
    simp [treePreimages, ht', preimages, hnodes, hpadded]
  rw [← halg] at hcf ⊢
  refine hstores.row_eq hcf (fun x hx => ?_) (fun x hx => ?_) hok
  · rw [halg, ← htree] at hx
    exact mem_append_right _ (mem_append_left _ hx)
  · exact mem_append_right _ (mem_append_right _ hx)

/-- The mutated attribute declares content leaves, so a row that starts with a bound leaf
does not verify. -/
theorem bound_not_verifies (hbound : e.merkleAttr.leafFormat = .bound)
    (halg : e.merkleAttr.algorithm = d.merkleAttr.algorithm) (hne : e.chunks ≠ [])
    (hslot : leaves[0]? = (e.leaves H)[0]?)
    (hcf : CollisionFree (d.merkleAttr.algorithm.hashRaw H)
      (mutationPreimages H e (d.storeTree H leaves))) :
    verifyDataset H ((d.storeTree H leaves).withData e) ≠ .ok true := by
  intro hok
  have hrow := storeTree_row_eq hcf hok
  obtain ⟨-, t, ht, -⟩ := verifyDataset_eq_ok.mp hok
  obtain ⟨chunk, chunks, hchunks⟩ := exists_cons_of_ne_nil hne
  let preimage := boundPreimage 0 chunk (e.chunkVersions.getD 0 0)
  -- the two leaf preimages of chunk 0
  have hbound_mem : preimage ∈ e.livePreimages := by
    simp [livePreimages, leafPreimages, hchunks, hbound, LeafFormat.preimage, preimage]
  have hcontent_mem :
      contentPreimage chunk ∈ ((d.storeTree H leaves).withData e).livePreimages := by
    simp [livePreimages, leafPreimages, withData, hchunks, LeafFormat.preimage]
  have hdigest : d.merkleAttr.algorithm.hashRaw H preimage =
      d.merkleAttr.algorithm.hashRaw H (contentPreimage chunk) := by
    have hslot' : leaves[0]? = some (d.merkleAttr.algorithm.hashRaw H preimage) := by
      simp [hslot, leaves_eq_mapIdx, hchunks, hbound, halg, LeafFormat.preimage, preimage]
    have hlive : ((d.storeTree H leaves).withData e).leaves H =
        d.merkleAttr.algorithm.hashRaw H (contentPreimage chunk) ::
          (((d.storeTree H leaves).withData e).leaves H).tail := by
      simp only [leaves_eq_mapIdx]
      simp [withData, hchunks, LeafFormat.preimage]
    have hzero := congrArg (fun row => row[0]?) hrow
    obtain ⟨first, rest, rfl⟩ : ∃ first rest, leaves = first :: rest := by
      cases leaves with
      | nil => simp at hslot'
      | cons first rest => exact ⟨first, rest, rfl⟩
    rw [liveHashes, hlive] at hzero
    simp only [paddedRow, cons_append, getElem?_cons_zero, Option.some.injEq]
      at hzero hslot'
    rw [← hslot', hzero]
  refine contentPreimage_ne_boundPreimage _ _ chunk
    (hcf _ (mem_append_left _ hbound_mem) _ ?_ hdigest).symm
  refine mem_append_right _ (mem_append_right _ ?_)
  rw [verifyPreimages, ht]
  exact mem_append_left _ hcontent_mem

end

/-! ### Appending -/

/-- Both checks accept, for every index up to `n`. -/
def Dataset.VerifiesUpTo (H : Hashers) (d : Dataset) (n : ℕ) : Prop :=
  verifyDataset H d = .ok true ∧ ∀ i ≤ n, verifyChunk H d i = .ok true

/-- Content leaves, and a stored tree with exactly one leaf slot for each chunk. -/
def Dataset.FullContent (d : Dataset) : Prop :=
  d.merkleAttr.leafFormat = .content ∧ d.treeNodes.length = (2 * d.chunkCount - 1) * hashSize

section

variable {H : Hashers} {d d' : Dataset} {h : Hash} {chunk : Bytes} {version : UInt64}

/-- The size of the stored array tells the number of leaf slots. -/
theorem paddedCount_eq_iff {t : MerkleTree} (ht : d.reconstructTree = .ok t) :
    d.treeNodes.length = (2 * d.chunkCount - 1) * hashSize ↔ t.paddedCount = d.chunkCount := by
  obtain ⟨-, hbytes, -, -⟩ := reconstructTree_eq_ok.mp ht
  rw [hbytes, t.length_nodes, hashSize]
  omega

/-- Appending to a full content dataset keeps it verifiable. -/
theorem verifiesUpTo_of_fullContent (hok : verifyDataset H d = .ok true)
    (hh : (d.pushChunk chunk version).leafHashFor H d.chunkCount chunk = .ok h)
    (hext : extendMerkle H d d.chunkCount h = .ok d') (hfull : d.FullContent) :
    (d'.withData (d.pushChunk chunk version)).VerifiesUpTo H d.chunkCount := by
  obtain ⟨hne, t, ht, hle, hversions, hstored, -⟩ := verifyDataset_eq_ok.mp hok
  obtain ⟨-, t', ht', rfl⟩ := extendMerkle_eq_ok.mp hext
  obtain rfl := ok.inj (ht.symm.trans ht')
  obtain ⟨-, -, hcount, -⟩ := reconstructTree_eq_ok.mp ht
  obtain ⟨hfmt, hsize⟩ := hfull
  have hpadded := (paddedCount_eq_iff ht).mp hsize
  -- without padding the stored row is the row of chunk digests
  have hrow : t.leafHashes = d.leaves H := by
    apply ext_getElem?
    intro i
    by_cases hi : i < d.chunks.length
    · exact getElem?_leafHashes hcount hle hstored hi
    · have hle' := not_lt.mp hi
      rw [getElem?_eq_none (by rwa [length_leafHashes hcount, hpadded]),
        getElem?_eq_none (by rwa [length_leaves])]
  rw [hrow]
  have hleaves := (storeTree_leaves_of_content d (d.pushChunk chunk version)
    (d.leaves H ++ [h]) hfmt rfl).trans (pushChunk_leaves hversions hh)
  have hlen : (d.leaves H ++ [h]).length = (d.pushChunk chunk version).chunks.length := by
    simp [pushChunk]
  have hstores : StoresRow H ((d.storeTree H (d.leaves H ++ [h])).withData
      (d.pushChunk chunk version)) (d.leaves H ++ [h]) :=
    { storeTree_storesTree with
      row := by rw [liveHashes, hleaves, paddedRow, hlen]; rfl
      le := (le_nextPowerOfTwo _).trans' (le_of_eq hlen.symm) }
  have hversions' : ((d.storeTree H (d.leaves H ++ [h])).withData
      (d.pushChunk chunk version)).HasVersions := by rintro ⟨⟩
  refine ⟨hstores.verifyDataset_ok (by simp [withData, pushChunk]) hversions',
    fun i hi => hstores.verifyChunk_ok hversions' ?_⟩
  rw [chunkCount] at hi
  simpa [withData, pushChunk, Nat.lt_succ_iff] using hi

/-- **When an append keeps a dataset verifiable.** Full content datasets stay verifiable.
With padding the new leaf lands behind the sentinels, and bound leaves lose their format, so
no other dataset does. -/
theorem extendMerkle_verifies_iff (hok : verifyDataset H d = .ok true)
    (hh : (d.pushChunk chunk version).leafHashFor H d.chunkCount chunk = .ok h)
    (hext : extendMerkle H d d.chunkCount h = .ok d') :
    (d.FullContent →
      (d'.withData (d.pushChunk chunk version)).VerifiesUpTo H d.chunkCount) ∧
    (CollisionFree (d.merkleAttr.algorithm.hashRaw H)
        (mutationPreimages H (d.pushChunk chunk version) d') →
      ((d'.withData (d.pushChunk chunk version)).VerifiesUpTo H d.chunkCount ↔
        d.FullContent)) := by
  refine ⟨verifiesUpTo_of_fullContent hok hh hext, fun hcf =>
    ⟨fun hverifies => ?_, verifiesUpTo_of_fullContent hok hh hext⟩⟩
  obtain ⟨hne, t, ht, hle, hversions, hstored, -⟩ := verifyDataset_eq_ok.mp hok
  obtain ⟨-, t', ht', rfl⟩ := extendMerkle_eq_ok.mp hext
  obtain rfl := ok.inj (ht.symm.trans ht')
  obtain ⟨-, -, hcount, -⟩ := reconstructTree_eq_ok.mp ht
  have hpos : 0 < d.chunks.length := length_pos_iff.mpr hne
  have hlen := length_leafHashes hcount
  have hleaves := pushChunk_leaves hversions hh
  cases hfmt : d.merkleAttr.leafFormat with
  | bound =>
    refine absurd hverifies.1 (bound_not_verifies hfmt rfl (by simp [pushChunk]) ?_ hcf)
    rw [hleaves, getElem?_append_left (by omega),
      getElem?_append_left (by simpa using hpos), getElem?_leafHashes hcount hle hstored hpos]
  | content =>
    refine ⟨hfmt, (paddedCount_eq_iff ht).mpr ?_⟩
    by_contra hpad
    have hlt : d.chunks.length < t.paddedCount := lt_of_le_of_ne hle (Ne.symm hpad)
    obtain ⟨a, ha⟩ := t.paddedCount_pow
    have hwidth : nextPowerOfTwo (t.leafHashes ++ [h]).length = 2 * t.paddedCount := by
      rw [length_append, hlen, ha, length_singleton, nextPowerOfTwo_two_pow_succ,
        pow_succ, mul_comm]
    -- slot `paddedCount` holds the new leaf in the stored row and a sentinel in the live row
    have hslot := congrArg (fun row => row[t.paddedCount]?) (storeTree_row_eq hcf hverifies.1)
    have hlive_slot := getElem?_liveHashes (H := H) (n := 2 * t.paddedCount)
      (d := (d.storeTree H (t.leafHashes ++ [h])).withData (d.pushChunk chunk version))
      (i := t.paddedCount) ((length_pushChunk d chunk version).trans_le hlt) (by omega)
    have hstored_slot :
        (paddedRow H (t.leafHashes ++ [h]) d.merkleAttr.algorithm)[t.paddedCount]? = some h := by
      rw [paddedRow, append_assoc, getElem?_append_right (by omega), hlen]
      simp
    rw [hwidth, hlive_slot, hstored_slot, storeTree_withData_algorithm] at hslot
    -- so a leaf and the sentinel would collide
    obtain ⟨-, hdigest⟩ := leafHashFor_eq_ok.mp hh
    have hnull : d.merkleAttr.algorithm.hashRaw H _ = d.merkleAttr.algorithm.hashRaw H
      nullPreimage := hdigest.symm.trans (Option.some.inj hslot)
    exact preimage_ne_nullPreimage _ _ _ _ (hcf _
      (mem_append_left _ (preimage_mem_pushChunk d chunk version)) _
      (mem_append_right _ (mem_append_right _
        (nullPreimage_mem_verifyPreimages hverifies.1))) hnull)

/-- One content chunk under SHA-256: a tree without padding. -/
def oneContentChunk : Dataset := Dataset.committed sha256Only .sha256 .content [[0x61]] []

/-- Three content chunks under SHA-256: a tree with one padded slot. -/
def threeContentChunks : Dataset :=
  Dataset.committed sha256Only .sha256 .content [[0x61], [0x62], [0x63]] []

theorem extendMerkle_verifies_oneContentChunk :
    ∃ d', extendMerkle sha256Only oneContentChunk 1 (sha256 [0x00, 0x62]) = .ok d' ∧
      (d'.withData (oneContentChunk.pushChunk [0x62] 0)).VerifiesUpTo sha256Only 1 := by
  have hok : verifyDataset sha256Only oneContentChunk = .ok true :=
    (committed_storesRow _ _ _ _).verifyDataset_ok (by decide) nofun
  obtain ⟨-, t, ht, -⟩ := verifyDataset_eq_ok.mp hok
  have hext : extendMerkle sha256Only oneContentChunk 1 (sha256 [0x00, 0x62]) =
      .ok (oneContentChunk.storeTree sha256Only (t.leafHashes ++ [sha256 [0x00, 0x62]])) :=
    extendMerkle_eq_ok.mpr ⟨rfl, t, ht, rfl⟩
  exact ⟨_, hext, (extendMerkle_verifies_iff hok rfl hext).1 ⟨rfl, by decide⟩⟩

/-- Appending to three chunks: the padded tree verifies before, and the fourth chunk is
compared with the sentinel that kept its place in the row after. -/
theorem extendMerkle_threeContentChunks_fails :
    verifyDataset sha256Only threeContentChunks = .ok true ∧
      (threeContentChunks.pushChunk [0x64] 0).leafHashFor sha256Only 3 [0x64] =
        .ok (sha256 [0x00, 0x64]) ∧
      (do
        let d' ← extendMerkle sha256Only threeContentChunks 3 (sha256 [0x00, 0x64])
        verifyDataset sha256Only (d'.withData (threeContentChunks.pushChunk [0x64] 0))) =
        .error (.hashMismatch 3) := by
  refine ⟨?_, rfl, by decide +kernel⟩
  exact (committed_storesRow _ _ _ _).verifyDataset_ok (by decide) nofun

end

/-! ### Overwriting and the attribute -/

/-- The attribute of `d'` declares what that of `d` does. -/
def Dataset.SameDeclarations (d d' : Dataset) : Prop :=
  d'.merkleAttr.algorithm = d.merkleAttr.algorithm ∧
    d'.merkleAttr.leafFormat = d.merkleAttr.leafFormat ∧
    d'.merkleAttr.gridHash = d.merkleAttr.gridHash

/-- Every stored leaf slot behind the chunks holds the sentinel. -/
def Dataset.NullPadded (H : Hashers) (d : Dataset) : Prop :=
  ∀ t, d.reconstructTree = .ok t → ∀ i, d.chunkCount ≤ i → i < t.paddedCount →
    t.leafHashes[i]? = some (d.merkleAttr.algorithm.nullSentinel H)

section

variable {H : Hashers} {d d' : Dataset} {idx : ℕ} {h : Hash} {chunk : Bytes} {version : UInt64}

/-- Both mutators end in `storeTree`. -/
theorem exists_storeTree_of_mutation
    (hmut : extendMerkle H d idx h = .ok d' ∨ updateMerkle H d idx h = .ok d') :
    ∃ leaves, d' = d.storeTree H leaves := by
  rcases hmut with hext | hupd
  · obtain ⟨-, t, -, rfl⟩ := extendMerkle_eq_ok.mp hext
    exact ⟨_, rfl⟩
  · obtain ⟨-, t, -, rfl⟩ := updateMerkle_eq_ok.mp hupd
    exact ⟨_, rfl⟩

theorem storeTree_sameDeclarations_iff {leaves : List Hash} :
    d.SameDeclarations (d.storeTree H leaves) ↔
      d.merkleAttr.leafFormat = .content ∧ d.merkleAttr.gridHash = zeroHash := by
  rw [Dataset.SameDeclarations, storeTree_algorithm, storeTree_leafFormat,
    storeTree_gridHash, eq_comm (a := content), eq_comm (a := zeroHash)]
  exact and_iff_right rfl

variable (H idx h) in
theorem paddedRow_update {t : MerkleTree} (ht : d.reconstructTree = .ok t) :
    paddedRow H (t.leafHashes.set idx h) d.merkleAttr.algorithm = t.leafHashes.set idx h ∧
      nextPowerOfTwo (t.leafHashes.set idx h).length = t.paddedCount := by
  obtain ⟨-, -, hcount, -⟩ := reconstructTree_eq_ok.mp ht
  obtain ⟨a, ha⟩ := t.paddedCount_pow
  have hwidth : nextPowerOfTwo (t.leafHashes.set idx h).length = t.paddedCount := by
    rw [length_set, length_leafHashes hcount, ha, nextPowerOfTwo_two_pow]
  refine ⟨?_, hwidth⟩
  rw [paddedRow, hwidth, length_set, length_leafHashes hcount, Nat.sub_self,
    replicate_zero, append_nil]

/-- For content leaves the updated row is the live row exactly when the padding is null. -/
theorem updated_row_eq_iff (hfmt : d.merkleAttr.leafFormat = .content)
    (hok : verifyDataset H d = .ok true) {t : MerkleTree} (ht : d.reconstructTree = .ok t)
    (hidx : idx < d.chunkCount)
    (hh : (d.replaceChunk idx chunk version).leafHashFor H idx chunk = .ok h) :
    t.leafHashes.set idx h = ((d.storeTree H (t.leafHashes.set idx h)).withData
          (d.replaceChunk idx chunk version)).liveHashes H t.paddedCount ↔
      d.NullPadded H := by
  obtain ⟨-, t', ht', hle, -, hstored, -⟩ := verifyDataset_eq_ok.mp hok
  obtain rfl := ok.inj (ht.symm.trans ht')
  obtain ⟨-, -, hcount, -⟩ := reconstructTree_eq_ok.mp ht
  have hlen := length_leafHashes hcount
  have hleaves := (storeTree_leaves_of_content d (d.replaceChunk idx chunk version)
    (t.leafHashes.set idx h) hfmt rfl).trans (replaceChunk_leaves hh)
  have hchunks : ((d.storeTree H (t.leafHashes.set idx h)).withData
      (d.replaceChunk idx chunk version)).chunks.length = d.chunks.length := length_set
  constructor
  · intro hrow s hs i hi hlt
    obtain rfl := ok.inj (ht.symm.trans hs)
    have hslot := congrArg (fun row => row[i]?) hrow
    rw [getElem?_liveHashes (hchunks.trans_le hi) hlt, storeTree_withData_algorithm,
      getElem?_set_ne (by omega)] at hslot
    exact hslot
  · intro hnull
    apply ext_getElem?
    intro i
    rcases lt_or_ge i d.chunks.length with hi | hi
    · -- a chunk's slot: the stored digest, or the new one
      rw [liveHashes, hleaves, getElem?_append_left (by simpa using hi), getElem?_set, getElem?_set,
        getElem?_leafHashes hcount hle hstored hi, length_leaves]
      split_ifs <;> first | rfl | omega
    · rcases lt_or_ge i t.paddedCount with hlt | hge
      · rw [getElem?_liveHashes (hchunks.trans_le hi) hlt, storeTree_withData_algorithm,
          getElem?_set_ne (hidx.trans_le hi).ne]
        exact hnull t ht i hi hlt
      · rw [getElem?_eq_none (by simpa [hlen] using hge),
          getElem?_eq_none (by simp [liveHashes]; omega)]

/-- An update of a content dataset with null padding keeps it verifiable. -/
theorem verifyDataset_of_update (hok : verifyDataset H d = .ok true)
    (hh : (d.replaceChunk idx chunk version).leafHashFor H idx chunk = .ok h)
    (hupd : updateMerkle H d idx h = .ok d') (hfmt : d.merkleAttr.leafFormat = .content)
    (hnull : d.NullPadded H) :
    verifyDataset H (d'.withData (d.replaceChunk idx chunk version)) = .ok true := by
  obtain ⟨hidx, t, ht, rfl⟩ := updateMerkle_eq_ok.mp hupd
  obtain ⟨hne, t', ht', hle, -, -, -⟩ := verifyDataset_eq_ok.mp hok
  obtain rfl := ok.inj (ht.symm.trans ht')
  obtain ⟨hrow, hwidth⟩ := paddedRow_update H idx h ht
  have hstores : StoresRow H ((d.storeTree H (t.leafHashes.set idx h)).withData
      (d.replaceChunk idx chunk version)) (t.leafHashes.set idx h) :=
    { storeTree_storesTree with
      row := by
        rw [storeTree_withData_algorithm, hrow, hwidth]
        exact (updated_row_eq_iff hfmt hok ht hidx hh).mpr hnull
      le := by
        rw [hwidth]
        exact length_set.trans_le hle }
  refine hstores.verifyDataset_ok ?_ nofun
  simpa [withData, replaceChunk] using hne

/-- **What a mutation does to the attribute.** The algorithm is always kept; the leaf format
and the grid are kept exactly when they were content and unbound. Hence an update keeps the
dataset verifiable for content leaves over null padding, and for no other dataset. -/
theorem mutation_attr_iff :
    (∀ idx h d', extendMerkle H d idx h = .ok d' ∨ updateMerkle H d idx h = .ok d' →
      d'.merkleAttr.algorithm = d.merkleAttr.algorithm ∧
      (d.SameDeclarations d' ↔
        d.merkleAttr.leafFormat = .content ∧ d.merkleAttr.gridHash = zeroHash)) ∧
    (∀ idx h d' chunk version, verifyDataset H d = .ok true →
      (d.replaceChunk idx chunk version).leafHashFor H idx chunk = .ok h →
      updateMerkle H d idx h = .ok d' →
      (d.merkleAttr.leafFormat = .content ∧ d.NullPadded H →
        verifyDataset H (d'.withData (d.replaceChunk idx chunk version)) = .ok true) ∧
      (CollisionFree (d.merkleAttr.algorithm.hashRaw H)
          (mutationPreimages H (d.replaceChunk idx chunk version) d') →
        (verifyDataset H (d'.withData (d.replaceChunk idx chunk version)) = .ok true ↔
          d.merkleAttr.leafFormat = .content ∧ d.NullPadded H))) := by
  constructor
  · intro idx h d' hmut
    obtain ⟨leaves, rfl⟩ := exists_storeTree_of_mutation hmut
    exact ⟨storeTree_algorithm, storeTree_sameDeclarations_iff⟩
  · intro idx h d' chunk version hok hh hupd
    have hsuff := fun hcond : d.merkleAttr.leafFormat = .content ∧ d.NullPadded H =>
      verifyDataset_of_update hok hh hupd hcond.1 hcond.2
    refine ⟨hsuff, fun hcf => ⟨fun hverifies => ?_, hsuff⟩⟩
    obtain ⟨hidx, t, ht, rfl⟩ := updateMerkle_eq_ok.mp hupd
    obtain ⟨hne, t', ht', hle, -, hstored, -⟩ := verifyDataset_eq_ok.mp hok
    obtain rfl := ok.inj (ht.symm.trans ht')
    obtain ⟨-, -, hcount, -⟩ := reconstructTree_eq_ok.mp ht
    cases hfmt : d.merkleAttr.leafFormat with
    | bound =>
      have hpos : 0 < d.chunks.length := length_pos_iff.mpr hne
      refine absurd hverifies (bound_not_verifies hfmt rfl ?_ ?_ hcf)
      · simpa [replaceChunk] using hne
      · rw [replaceChunk_leaves hh, getElem?_set, getElem?_set,
          getElem?_leafHashes hcount hle hstored hpos, length_leafHashes hcount,
          length_leaves, if_pos (hidx.trans_le hle)]
        exact (if_congr Iff.rfl (if_pos hidx) rfl).symm
    | content =>
      have hrow := storeTree_row_eq hcf hverifies
      obtain ⟨hfull, hwidth⟩ := paddedRow_update H idx h ht
      rw [hfull, hwidth] at hrow
      exact ⟨rfl, (updated_row_eq_iff hfmt hok ht hidx hh).mp hrow⟩

def oneBoundChunk : Dataset := Dataset.committed sha256Only .sha256 .bound [[0x61]] [4]

def twoContentChunks : Dataset :=
  Dataset.committed sha256Only .sha256 .content [[0x61], [0x62]] []

theorem mutation_attr_twoContentChunks :
    ∃ d', updateMerkle sha256Only twoContentChunks 1 (sha256 [0x00, 0x63]) = .ok d' ∧
      twoContentChunks.SameDeclarations d' ∧
      verifyDataset sha256Only (d'.withData (twoContentChunks.replaceChunk 1 [0x63] 0)) =
        .ok true := by
  have hok : verifyDataset sha256Only twoContentChunks = .ok true :=
    (committed_storesRow _ _ _ _).verifyDataset_ok (by decide) nofun
  obtain ⟨hne, t, ht, -⟩ := verifyDataset_eq_ok.mp hok
  have hupd : updateMerkle sha256Only twoContentChunks 1 (sha256 [0x00, 0x63]) =
      .ok (twoContentChunks.storeTree sha256Only (t.leafHashes.set 1 (sha256 [0x00, 0x63]))) :=
    updateMerkle_eq_ok.mpr ⟨by decide, t, ht, rfl⟩
  refine ⟨_, hupd, ((mutation_attr_iff.1 _ _ _ (.inr hupd)).2).mpr ⟨rfl, rfl⟩,
    (mutation_attr_iff.2 _ _ _ _ _ hok rfl hupd).1 ⟨rfl, fun s hs i hi hlt => ?_⟩⟩
  -- two chunks fill their tree, so there is no padded slot
  exact absurd hlt ((paddedCount_eq_iff hs).mp (by decide) ▸ not_lt.mpr hi)

/-- Overwriting a bound chunk with the right bound leaf: the attribute falls back to content
leaves, and the chunk no longer verifies. -/
theorem updateMerkle_oneBoundChunk_fails :
    verifyDataset sha256Only oneBoundChunk = .ok true ∧
      oneBoundChunk.merkleAttr.leafFormat = .bound ∧
      (oneBoundChunk.replaceChunk 0 [0x62] 5).leafHashFor sha256Only 0 [0x62] =
        .ok (sha256 (boundPreimage 0 [0x62] 5)) ∧
      (do
        let d' ← updateMerkle sha256Only oneBoundChunk 0 (sha256 (boundPreimage 0 [0x62] 5))
        .ok d'.merkleAttr.leafFormat) = (.ok .content : Except MerkleError LeafFormat) ∧
      (do
        let d' ← updateMerkle sha256Only oneBoundChunk 0 (sha256 (boundPreimage 0 [0x62] 5))
        verifyDataset sha256Only (d'.withData (oneBoundChunk.replaceChunk 0 [0x62] 5))) =
        .error (.hashMismatch 0) := by
  refine ⟨?_, rfl, rfl, by decide +kernel, by decide +kernel⟩
  exact (committed_storesRow _ _ _ _).verifyDataset_ok (by decide) fun _ => by decide

end

end ClawHdf5.Merkle
