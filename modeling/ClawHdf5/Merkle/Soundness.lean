import ClawHdf5.Merkle.Dataset

/-!
# Soundness and completeness of Merkle verification

The root of an honest tree determines the leaf row below it, and a climb that reaches the
root starts at a leaf of that row. Both `verifyDataset` and `verifyChunk` inherit this: they
accept only what the writer committed to, whatever the stored node array holds. Conversely
they accept every dataset that stores an honest tree over its own leaf row.
-/

namespace ClawHdf5.Merkle

open LevelOrder MachineInt List Dataset MerkleTree

variable {i : ℕ} {x : Bytes} {occurring : List Bytes}

/-! ### Rows of preimages -/

/-- The preimages of the padded leaf row over `pre`. -/
def rowPreimages (pre : List Bytes) : List Bytes :=
  pre ++ replicate (nextPowerOfTwo pre.length - pre.length) nullPreimage

/-- The tree over the digests of `pre`. -/
def rowTree (H : Hashers) (alg : HashAlg) (pre : List Bytes) : MerkleTree :=
  MerkleTree.fromLeafHashes H (pre.map (alg.hashRaw H)) alg

theorem length_rowPreimages (pre : List Bytes) :
    (rowPreimages pre).length = nextPowerOfTwo pre.length := by
  have := le_nextPowerOfTwo pre.length
  simp only [rowPreimages, length_append, length_replicate]
  omega

theorem paddedRow_eq_map (H : Hashers) (alg : HashAlg) (pre : List Bytes) :
    paddedRow H (pre.map (alg.hashRaw H)) alg = (rowPreimages pre).map (alg.hashRaw H) := by
  simp [paddedRow, rowPreimages, HashAlg.nullSentinel]

/-- A row without sentinels is determined by its padding. -/
theorem eq_of_append_replicate_eq {pre pre' : List Bytes} {n n' : ℕ}
    (hpre : nullPreimage ∉ pre) (hpre' : nullPreimage ∉ pre')
    (h : pre ++ replicate n nullPreimage = pre' ++ replicate n' nullPreimage) :
    pre = pre' := by
  have htake {l : List Bytes} (hl : nullPreimage ∉ l) (k : ℕ) :
      (l ++ replicate k nullPreimage).takeWhile (fun x => x ≠ nullPreimage) = l := by
    rw [takeWhile_append_of_pos]
    · simp
    · intro x hx
      simp only [decide_not, Bool.not_eq_eq_eq_not, Bool.not_true, decide_eq_false_iff_not]
      rintro rfl
      exact hl hx
  rw [← htake hpre n, h, htake hpre' n']

theorem getElem?_of_rowPreimages {pre : List Bytes} (h : (rowPreimages pre)[i]? = some x)
    (hx : x ≠ nullPreimage) : pre[i]? = some x := by
  rw [rowPreimages, getElem?_append] at h
  split_ifs at h with hi
  · exact h
  · exact absurd (mem_replicate.mp (mem_of_getElem? h)).2 hx

/-- What is hashed to build the tree over `pre` is listed, and `pre` holds leaves only. -/
structure Occurs (H : Hashers) (alg : HashAlg) (occurring pre : List Bytes) : Prop where
  mem : ∀ x ∈ pre, x ∈ occurring
  mem_tree : ∀ x ∈ (rowTree H alg pre).preimages, x ∈ occurring
  leaf : ∀ x ∈ pre, ∀ l r, x ≠ pairPreimage l r

section

variable {H : Hashers} {alg : HashAlg} {occurring pre pre' : List Bytes} {a b : ℕ}

namespace Occurs

theorem mem_row (h : Occurs H alg occurring pre) (hx : x ∈ rowPreimages pre) :
    x ∈ occurring ∧ ∀ l r, x ≠ pairPreimage l r := by
  rcases mem_append.mp hx with hx | hx
  · exact ⟨h.mem x hx, h.leaf x hx⟩
  · obtain rfl := (mem_replicate.mp hx).2
    exact ⟨h.mem_tree _ mem_cons_self, nullPreimage_ne_pairPreimage⟩

variable (ha : nextPowerOfTwo pre.length = 2 ^ a)

include ha

theorem isHashed : IsHashed (alg.hashPair H) a (label (rowTree H alg pre).nodes) :=
  fromLeafHashes_isHashed (by simpa using ha)

theorem treePairs_subset (h : Occurs H alg occurring pre) :
    treePairs a (label (rowTree H alg pre).nodes) ⊆ hashedPairs occurring := by
  intro p hp
  exact h.mem_tree _ (mem_preimages _ (by simpa [rowTree] using ha) hp)

variable (H alg) in
theorem label_leaf (hi : i < 2 ^ a) : ∃ x, (rowPreimages pre)[i]? = some x ∧
      label (rowTree H alg pre).nodes (2 ^ a + i) = alg.hashRaw H x := by
  have hlt : i < (rowPreimages pre).length := by rwa [length_rowPreimages, ha]
  refine ⟨(rowPreimages pre)[i], getElem?_eq_getElem hlt, ?_⟩
  rw [rowTree, fromLeafHashes_leaf (by simpa using ha), paddedRow_eq_map,
    getD_eq_getElem _ _ (by simpa using hlt), getElem_map]

theorem label_mem_leafDigests (h : Occurs H alg occurring pre) {m : ℕ} (hm : 2 ^ a ≤ m)
    (hm' : m < 2 ^ (a + 1)) :
    label (rowTree H alg pre).nodes m ∈ leafDigests (alg.hashRaw H) occurring := by
  obtain ⟨i, rfl⟩ : ∃ i, m = 2 ^ a + i := ⟨m - 2 ^ a, by omega⟩
  obtain ⟨x, hx, hlabel⟩ := label_leaf H alg ha (i := i) (by rw [pow_succ] at hm'; omega)
  obtain ⟨hmem, hleaf⟩ := h.mem_row (mem_of_getElem? hx)
  exact ⟨x, hmem, hlabel.symm, hleaf⟩

end Occurs

/-- **Row binding.** Honest trees with one root have one row of preimages, also when they are
hashed by two algorithms. -/
theorem rowPreimages_eq_of_root_eq_across {alg' : HashAlg} {occurring' : List Bytes}
    (hcf : ∀ x ∈ occurring, ∀ y ∈ occurring', alg.hashRaw H x = alg'.hashRaw H y → x = y)
    (hpre : Occurs H alg occurring pre) (hpre' : Occurs H alg' occurring' pre')
    (hroot : (rowTree H alg pre).root = (rowTree H alg' pre').root) :
    rowPreimages pre = rowPreimages pre' := by
  obtain ⟨a, ha⟩ := exists_nextPowerOfTwo pre.length
  obtain ⟨b, hb⟩ := exists_nextPowerOfTwo pre'.length
  obtain ⟨rfl, hleaves⟩ := leaves_eq_of_root_eq (apart_of_collisionFree hcf)
    (Occurs.isHashed ha) (Occurs.isHashed hb) (hpre.treePairs_subset ha)
    (hpre'.treePairs_subset hb) (fun _ => hpre.label_mem_leafDigests ha)
    (fun _ => hpre'.label_mem_leafDigests hb) hroot
  apply ext_getElem?
  intro i
  rcases lt_or_ge i (2 ^ a) with hi | hi
  · obtain ⟨x, hx, hlabel⟩ := Occurs.label_leaf H alg ha hi
    obtain ⟨y, hy, hlabel'⟩ := Occurs.label_leaf H alg' hb hi
    have hdigest : alg.hashRaw H x = alg'.hashRaw H y := by
      rw [← hlabel, ← hlabel', hleaves i hi]
    rw [hx, hy, hcf _ (hpre.mem_row (mem_of_getElem? hx)).1 _
      (hpre'.mem_row (mem_of_getElem? hy)).1 hdigest]
  · rw [getElem?_eq_none (by rwa [length_rowPreimages, ha]),
      getElem?_eq_none (by rwa [length_rowPreimages, hb])]

theorem rowPreimages_eq_of_root_eq (hcf : CollisionFree (alg.hashRaw H) occurring)
    (hpre : Occurs H alg occurring pre) (hpre' : Occurs H alg occurring pre')
    (hroot : (rowTree H alg pre).root = (rowTree H alg pre').root) :
    rowPreimages pre = rowPreimages pre' :=
  rowPreimages_eq_of_root_eq_across hcf hpre hpre' hroot

/-- Honest trees of one width with one root have one leaf row, whatever its digests are
digests of: only inner nodes are compared. -/
theorem paddedRow_eq_of_root_eq {leaves leaves' : List Hash}
    (hcf : CollisionFree (alg.hashRaw H) occurring)
    (hwidth : nextPowerOfTwo leaves.length = nextPowerOfTwo leaves'.length)
    (htree : ∀ x ∈ (fromLeafHashes H leaves alg).preimages, x ∈ occurring)
    (htree' : ∀ x ∈ (fromLeafHashes H leaves' alg).preimages, x ∈ occurring)
    (hroot : (fromLeafHashes H leaves alg).root = (fromLeafHashes H leaves' alg).root) :
    paddedRow H leaves alg = paddedRow H leaves' alg := by
  obtain ⟨a, ha⟩ := exists_nextPowerOfTwo leaves.length
  have ha' := hwidth.symm.trans ha
  apply ext_getElem
  · rw [length_paddedRow, length_paddedRow, hwidth]
  · intro i hi hi'
    have hlt : i < 2 ^ a := by rwa [length_paddedRow, ha] at hi
    have hlabel := label_eq_of_root_eq (separated_of_collisionFree hcf).apart
      (fromLeafHashes_isHashed ha) (fromLeafHashes_isHashed ha')
      (fun p hp => htree _ (mem_preimages _ (by simpa using ha) hp))
      (fun p hp => htree' _ (mem_preimages _ (by simpa using ha') hp)) hroot
      (m := 2 ^ a + i) (by omega) (by rw [pow_succ]; omega) (by rw [pow_succ]; omega)
    rwa [fromLeafHashes_leaf ha, fromLeafHashes_leaf ha', getD_eq_getElem _ _ hi,
      getD_eq_getElem _ _ hi'] at hlabel

/-- **Slot binding.** A climb from a leaf digest in slot `i` that reaches an honest root has
the height of the tree and starts with the preimage in that slot. -/
theorem getElem?_rowPreimages_of_climb (hcf : CollisionFree (alg.hashRaw H) occurring)
    (hpre : Occurs H alg occurring pre) {sib : ℕ → Hash} (hi : i < 2 ^ b) (hx : x ∈ occurring)
    (hleaf : ∀ l r, x ≠ pairPreimage l r)
    (hpairs : ∀ p ∈ climbPairs (alg.hashPair H) sib b (2 ^ b + i) (alg.hashRaw H x), pairPreimage
      p.1 p.2 ∈ occurring)
    (hroot : climb (alg.hashPair H) sib b (2 ^ b + i) (alg.hashRaw H x) = (rowTree H alg pre).root)
      :
    nextPowerOfTwo pre.length = 2 ^ b ∧ (rowPreimages pre)[i]? = some x := by
  obtain ⟨a, ha⟩ := exists_nextPowerOfTwo pre.length
  obtain ⟨rfl, hlabel⟩ := climb_binds (separated_of_collisionFree hcf) (Occurs.isHashed ha)
    (hpre.treePairs_subset ha) (fun _ => hpre.label_mem_leafDigests ha) ⟨x, hx, rfl, hleaf⟩
    hpairs (by omega) (by rw [pow_succ]; omega) hroot
  obtain ⟨y, hy, hlabel'⟩ := Occurs.label_leaf H alg ha hi
  refine ⟨ha, ?_⟩
  rw [hy, hcf _ hx _ (hpre.mem_row (mem_of_getElem? hy)).1 (hlabel.trans hlabel')]

end

/-! ### Leaf preimages of chunks -/

section

variable {fmt : LeafFormat} {chunks chunks' : List Bytes} {versions versions' : List UInt64}
variable {x : Bytes}

theorem exists_of_mem_leafPreimages (hx : x ∈ leafPreimages fmt chunks versions) :
    ∃ idx data v, x = fmt.preimage idx data v := by
  obtain ⟨i, hi⟩ := mem_iff_getElem?.mp hx
  rw [getElem?_leafPreimages, Option.map_eq_some_iff] at hi
  obtain ⟨data, -, rfl⟩ := hi
  exact ⟨i, data, _, rfl⟩

theorem ne_pairPreimage_of_mem_leafPreimages (hx : x ∈ leafPreimages fmt chunks versions)
    (l r : Hash) : x ≠ pairPreimage l r := by
  obtain ⟨idx, data, v, rfl⟩ := exists_of_mem_leafPreimages hx
  exact fmt.preimage_ne_pairPreimage idx data v l r

theorem nullPreimage_notMem_leafPreimages : nullPreimage ∉ leafPreimages fmt chunks versions := by
  intro h
  obtain ⟨idx, data, v, heq⟩ := exists_of_mem_leafPreimages h
  exact fmt.preimage_ne_nullPreimage idx data v heq.symm

/-- Equal leaf preimages in one slot come from the same chunk and, when the format binds it,
the same version. -/
theorem chunk_eq_of_getElem?_leafPreimages (h : (leafPreimages fmt chunks versions)[i]? = some x)
    (h' : (leafPreimages fmt chunks' versions')[i]? = some x) :
    chunks[i]? = chunks'[i]? ∧ (fmt = .bound → versions.getD i 0 = versions'.getD i 0) := by
  rw [getElem?_leafPreimages, Option.map_eq_some_iff] at h h'
  obtain ⟨data, hdata, rfl⟩ := h
  obtain ⟨data', hdata', heq⟩ := h'
  obtain ⟨rfl, hversion⟩ := LeafFormat.preimage_inj heq.symm
  exact ⟨hdata.trans hdata'.symm, hversion⟩

/-- Leaf preimages determine the chunks and, when the format binds them, the versions. -/
theorem chunks_eq_of_leafPreimages_eq
    (h : leafPreimages fmt chunks versions = leafPreimages fmt chunks' versions') :
    chunks = chunks' ∧
      (fmt = .bound → ∀ i < chunks.length, versions.getD i 0 = versions'.getD i 0) := by
  have hcount : chunks.length = chunks'.length := by simpa using congrArg length h
  have hslot {i : ℕ} (hi : i < chunks.length) :
      chunks[i]? = chunks'[i]? ∧ (fmt = .bound → versions.getD i 0 = versions'.getD i 0) := by
    have hmem := getElem?_eq_getElem (l := leafPreimages fmt chunks versions) (i := i)
      (by simpa using hi)
    exact chunk_eq_of_getElem?_leafPreimages hmem (h ▸ hmem)
  refine ⟨ext_getElem? fun i => ?_, fun hbound i hi => (hslot hi).2 hbound⟩
  by_cases hi : i < chunks.length
  · exact (hslot hi).1
  · rw [getElem?_eq_none (by omega), getElem?_eq_none (by omega)]

theorem getElem?_eq_of_getD_eq (hi : i < versions.length) (hi' : i < versions'.length)
    (h : versions.getD i 0 = versions'.getD i 0) : versions[i]? = versions'[i]? := by
  rw [getD_eq_getElem _ _ hi, getD_eq_getElem _ _ hi'] at h
  rw [getElem?_eq_getElem hi, getElem?_eq_getElem hi', h]

end

/-! ### What occurs -/

/-- What an honest writer hashes. -/
def commitPreimages (H : Hashers) (alg : HashAlg) (fmt : LeafFormat) (chunks : List Bytes)
    (versions : List UInt64) : List Bytes :=
  leafPreimages fmt chunks versions ++ (commitTree H alg fmt chunks versions).preimages

/-- The leaf preimages of a dataset's own chunks. -/
def Dataset.livePreimages (d : Dataset) : List Bytes :=
  leafPreimages d.merkleAttr.leafFormat d.chunks d.chunkVersions

/-- The live leaf row at the stored width, as preimages. -/
def Dataset.liveRow (d : Dataset) (width : ℕ) : List Bytes :=
  d.livePreimages ++ replicate (width - d.chunks.length) nullPreimage

/-- What `verifyDataset` hashes once the stored shape is accepted: the leaves, the sentinel
and the inner nodes of the rebuilt tree. -/
def Dataset.verifyPreimages (H : Hashers) (d : Dataset) : List Bytes :=
  match d.reconstructTree with
  | .error _ => []
  | .ok t =>
    d.livePreimages ++ (rowTree H d.merkleAttr.algorithm (d.liveRow t.paddedCount)).preimages

/-- What `verifyChunk` hashes once the stored shape is accepted: the leaf and the pairs on
its path. -/
def Dataset.chunkPreimages (H : Hashers) (d : Dataset) (idx : ℕ) : List Bytes :=
  match d.reconstructTree with
  | .error _ => []
  | .ok t =>
    match t.proof idx with
    | none => []
    | some p => d.livePreimages[idx]?.toList ++ p.preimages H ((d.leaves H).getD idx default)

theorem occurs_commit {H : Hashers} {alg : HashAlg} {fmt : LeafFormat} {chunks : List Bytes}
    {versions : List UInt64} (h : ∀ x ∈ commitPreimages H alg fmt chunks versions, x ∈ occurring) :
    Occurs H alg occurring (leafPreimages fmt chunks versions) where
  mem x hx := h x (mem_append_left _ hx)
  mem_tree x hx := h x (mem_append_right _ hx)
  leaf _ hx := ne_pairPreimage_of_mem_leafPreimages hx

/-- The tree `verifyDataset` rebuilds is the tree over the live row. -/
theorem Dataset.rebuilt_eq_rowTree (H : Hashers) (d : Dataset) (width : ℕ) :
    fromLeafHashes H (d.liveHashes H width) d.merkleAttr.algorithm =
      rowTree H d.merkleAttr.algorithm (d.liveRow width) := by
  simp [rowTree, liveHashes, liveRow, livePreimages, leaves, HashAlg.nullSentinel]

/-- A live row that fills a power of two needs no further padding. -/
theorem Dataset.rowPreimages_liveRow {d : Dataset} {a : ℕ} (h : d.chunks.length ≤ 2 ^ a) :
    rowPreimages (d.liveRow (2 ^ a)) = d.liveRow (2 ^ a) := by
  have hlen : (d.liveRow (2 ^ a)).length = 2 ^ a := by
    simp only [liveRow, livePreimages, length_append, length_leafPreimages, length_replicate]
    omega
  rw [rowPreimages, hlen, nextPowerOfTwo_two_pow, Nat.sub_self, replicate_zero, append_nil]

/-- The live row occurs among the preimages of `verifyDataset`. -/
theorem occurs_liveRow {H : Hashers} {d : Dataset} {t : MerkleTree} (ht : d.reconstructTree = .ok t)
    (h : ∀ x ∈ d.verifyPreimages H, x ∈ occurring) :
    Occurs H d.merkleAttr.algorithm occurring (d.liveRow t.paddedCount) := by
  simp only [verifyPreimages, ht] at h
  have hrow {x : Bytes} (hx : x ∈ d.liveRow t.paddedCount) :
      x ∈ d.livePreimages ∨ x = nullPreimage :=
    (mem_append.mp hx).imp_right fun hx => (mem_replicate.mp hx).2
  refine ⟨fun x hx => ?_, fun x hx => h x (mem_append_right _ hx), fun x hx => ?_⟩
  · rcases hrow hx with hx | rfl
    · exact h x (mem_append_left _ hx)
    · exact h _ (mem_append_right _ mem_cons_self)
  · rcases hrow hx with hx | rfl
    · exact ne_pairPreimage_of_mem_leafPreimages hx
    · exact nullPreimage_ne_pairPreimage

/-! ### Chunk lists -/

section

variable {H : Hashers} {alg : HashAlg} {chunks chunks' : List Bytes}

theorem map_leafPreimages_content (H : Hashers) (alg : HashAlg) (chunks : List Bytes)
    (versions : List UInt64) :
    (leafPreimages .content chunks versions).map (alg.hashRaw H) =
      chunks.map fun chunk => alg.hashLeaf H chunk := by
  refine ext_getElem (by simp) fun i hi hi' => ?_
  simp only [leafPreimages, getElem_map, getElem_mapIdx]
  rfl

theorem commitTree_content (H : Hashers) (alg : HashAlg) (chunks : List Bytes)
    (versions : List UInt64) :
    commitTree H alg .content chunks versions = fromChunks H chunks alg := by
  rw [commitTree, map_leafPreimages_content, fromChunks]

/-- Honest trees with one root have the same leaf preimages. -/
theorem leafPreimages_eq_of_root_eq {fmt : LeafFormat} {versions versions' : List UInt64}
    (hcf : CollisionFree (alg.hashRaw H)
      (commitPreimages H alg fmt chunks versions ++ commitPreimages H alg fmt chunks' versions'))
    (hroot : (commitTree H alg fmt chunks versions).root =
      (commitTree H alg fmt chunks' versions').root) :
    leafPreimages fmt chunks versions = leafPreimages fmt chunks' versions' := by
  have hrows := rowPreimages_eq_of_root_eq hcf (occurs_commit fun x hx => mem_append_left _ hx)
    (occurs_commit fun x hx => mem_append_right _ hx) hroot
  -- the rows may be padded differently, but sentinels are no leaves
  exact eq_of_append_replicate_eq nullPreimage_notMem_leafPreimages
    nullPreimage_notMem_leafPreimages hrows

/-- **Chunk-list binding.** Trees over chunk lists of any lengths have one root only if the
lists are the same. -/
theorem fromChunks_eq_of_root_eq
    (hcf : CollisionFree (alg.hashRaw H)
      (commitPreimages H alg .content chunks [] ++ commitPreimages H alg .content chunks' []))
    (hroot : (MerkleTree.fromChunks H chunks alg).root =
      (MerkleTree.fromChunks H chunks' alg).root) : chunks = chunks' := by
  rw [← commitTree_content H alg chunks [], ← commitTree_content H alg chunks' []] at hroot
  exact (chunks_eq_of_leafPreimages_eq (leafPreimages_eq_of_root_eq hcf hroot)).1

theorem fromChunks_eq_of_root_eq_threeChunks :
    ([[0x61], [], [0x62]] : List Bytes) = [[0x61], [], [0x62]] :=
  @fromChunks_eq_of_root_eq sha256Only .sha256 [[0x61], [], [0x62]] [[0x61], [], [0x62]]
    (by decide +kernel) rfl

end

/-! ### Completeness -/

/-- The dataset stores the honest tree over `leaves`, and its root. -/
structure StoresTree (H : Hashers) (d : Dataset) (leaves : List Hash) : Prop where
  nodes : d.treeNodes =
    flatNodes (MerkleTree.fromLeafHashes H leaves d.merkleAttr.algorithm).nodes
  root : d.merkleAttr.root =
    (MerkleTree.fromLeafHashes H leaves d.merkleAttr.algorithm).root

/-- The dataset stores an honest tree over its own leaf row. -/
structure StoresRow (H : Hashers) (d : Dataset) (leaves : List Hash) : Prop
    extends StoresTree H d leaves where
  row : paddedRow H leaves d.merkleAttr.algorithm =
    d.liveHashes H (nextPowerOfTwo leaves.length)
  le : d.chunks.length ≤ nextPowerOfTwo leaves.length

/-- Padding a row that is already padded changes nothing. -/
theorem fromLeafHashes_paddedRow_nodes (H : Hashers) (leaves : List Hash) (alg : HashAlg) :
    (fromLeafHashes H (paddedRow H leaves alg) alg).nodes =
      (fromLeafHashes H leaves alg).nodes := by
  obtain ⟨a, ha⟩ := exists_nextPowerOfTwo leaves.length
  have hlen : (paddedRow H leaves alg).length = 2 ^ a := by rw [length_paddedRow, ha]
  have hrow : paddedRow H (paddedRow H leaves alg) alg = paddedRow H leaves alg := by
    rw [paddedRow, hlen, nextPowerOfTwo_two_pow, Nat.sub_self, replicate_zero, append_nil]
  rw [fromLeafHashes_nodes, fromLeafHashes_nodes, hrow, hlen, nextPowerOfTwo_two_pow, ha]

section

variable {H : Hashers} {d : Dataset} {leaves : List Hash}

/-- A verified dataset that stores the nodes of the honest tree over its own leaves carries the root
of that tree. -/
theorem root_eq_of_verifyDataset (hnodes : d.treeNodes =
      flatNodes (fromLeafHashes H (d.leaves H) d.merkleAttr.algorithm).nodes)
    (hok : verifyDataset H d = .ok true) :
    d.merkleAttr.root = (fromLeafHashes H (d.leaves H) d.merkleAttr.algorithm).root := by
  obtain ⟨-, t, ht, -, -, -, hroot⟩ := verifyDataset_eq_ok.mp hok
  obtain ⟨htnodes, -, -, -⟩ := reconstructTree_eq_ok.mp ht
  -- the stored width is the width of the honest tree
  have hwidth : t.paddedCount = nextPowerOfTwo (d.leaves H).length := by
    have htree := (fromLeafHashes H (d.leaves H) d.merkleAttr.algorithm).length_nodes
    rw [hnodes, splitNodes_flatNodes] at htnodes
    rw [← htnodes, t.length_nodes, fromLeafHashes_paddedCount] at htree
    omega
  rw [hwidth] at hroot
  have hsame := fromLeafHashes_paddedRow_nodes H (d.leaves H) d.merkleAttr.algorithm
  rw [← hroot, root, root, ← hsame, paddedRow, length_leaves, liveHashes]

/-- A stored honest tree is read back as it is. -/
theorem StoresTree.reconstructTree (h : StoresTree H d leaves) : ∃ t, d.reconstructTree = .ok t ∧
      t.nodes = (fromLeafHashes H leaves d.merkleAttr.algorithm).nodes ∧
      t.leafCount = t.paddedCount ∧ t.paddedCount = nextPowerOfTwo leaves.length ∧
      t.alg = d.merkleAttr.algorithm := by
  let tree := fromLeafHashes H leaves d.merkleAttr.algorithm
  refine ⟨{ tree with leafCount := tree.paddedCount }, reconstructTree_eq_ok.mpr ?_, rfl, rfl,
    fromLeafHashes_paddedCount H leaves _, fromLeafHashes_alg H leaves _⟩
  rw [h.nodes]
  exact ⟨(splitNodes_flatNodes _).symm, length_flatNodes _, rfl, fromLeafHashes_alg H leaves _⟩

namespace StoresRow

theorem label_leaf (h : StoresRow H d leaves) {a : ℕ} (ha : nextPowerOfTwo leaves.length = 2 ^ a)
    (hi : i < d.chunks.length) :
    label (fromLeafHashes H leaves d.merkleAttr.algorithm).nodes (2 ^ a + i) =
      (d.leaves H).getD i default := by
  rw [fromLeafHashes_leaf ha, h.row, liveHashes, getD_append _ _ _ _ (by simpa using hi)]

/-- **Completeness of `verifyDataset`.** -/
theorem verifyDataset_ok (h : StoresRow H d leaves) (hne : d.chunks ≠ [])
    (hversions : d.HasVersions) : verifyDataset H d = .ok true := by
  obtain ⟨t, ht, hnodes, -, hpadded, -⟩ := h.reconstructTree
  obtain ⟨a, ha⟩ := exists_nextPowerOfTwo leaves.length
  refine verifyDataset_eq_ok.mpr ⟨hne, t, ht, hpadded ▸ h.le, hversions, fun i hi => ?_, ?_⟩
  · rw [hnodes, hpadded, ha]
    exact h.label_leaf ha hi
  · rw [hpadded, h.root]
    have hnodes' := fromLeafHashes_paddedRow_nodes H leaves d.merkleAttr.algorithm
    rw [h.row] at hnodes'
    exact congrArg (fun nodes => nodes.getD 0 default) hnodes'

/-- **Completeness of `verifyChunk`.** -/
theorem verifyChunk_ok (h : StoresRow H d leaves) (hversions : d.HasVersions)
    (hi : i < d.chunks.length) : verifyChunk H d i = .ok true := by
  obtain ⟨t, ht, hnodes, hcount, hpadded, halg⟩ := h.reconstructTree
  obtain ⟨a, ha⟩ := exists_nextPowerOfTwo leaves.length
  have hle := h.le
  have hi' : i < 2 ^ a := by omega
  have hproof := proof_eq_some (t := t) (i := i) (by omega)
  refine verifyChunk_eq_ok.mpr ⟨hi, t, ht, hpadded ▸ hle, fun hbound => ?_, _, hproof, ?_⟩
  · have := hversions hbound
    omega
  · rw [(computeRootFromHash_proof (hpadded.trans ha) hi' hproof _).1, halg, hnodes, h.root,
      ← h.label_leaf ha hi]
    exact climb_eq_root (fromLeafHashes_isHashed ha) (fun _ _ => rfl) (by omega)
      (by rw [pow_succ]; omega) le_rfl

end StoresRow

/-- A verified dataset that stores an honest tree stores the tree over its own leaf row. -/
theorem StoresTree.row_eq (h : StoresTree H d leaves)
    (hcf : CollisionFree (d.merkleAttr.algorithm.hashRaw H) occurring)
    (htree : ∀ x ∈ (fromLeafHashes H leaves d.merkleAttr.algorithm).preimages, x ∈ occurring)
    (hlive : ∀ x ∈ d.verifyPreimages H, x ∈ occurring) (hok : verifyDataset H d = .ok true) :
    paddedRow H leaves d.merkleAttr.algorithm = d.liveHashes H (nextPowerOfTwo leaves.length) := by
  obtain ⟨t, ht, -, -, hpadded, -⟩ := h.reconstructTree
  obtain ⟨a, ha⟩ := exists_nextPowerOfTwo leaves.length
  obtain ⟨-, t', ht', hle, -, -, hroot⟩ := verifyDataset_eq_ok.mp hok
  obtain rfl := Except.ok.inj (ht.symm.trans ht')
  simp only [verifyPreimages, ht, ← rebuilt_eq_rowTree] at hlive
  rw [hpadded] at hroot hlive hle
  have hwidth : (d.liveHashes H (nextPowerOfTwo leaves.length)).length = 2 ^ a := by
    simp only [liveHashes, length_append, length_leaves, length_replicate]
    omega
  have hrow := paddedRow_eq_of_root_eq hcf (by rw [hwidth, nextPowerOfTwo_two_pow, ha]) htree
    (fun x hx => hlive x (mem_append_right _ hx)) (h.root.symm.trans hroot.symm)
  rw [hrow, paddedRow, hwidth, nextPowerOfTwo_two_pow, Nat.sub_self, replicate_zero, append_nil]

section

variable (alg : HashAlg) (fmt : LeafFormat) (chunks : List Bytes) (versions : List UInt64)
include alg fmt chunks versions

@[simp] theorem Dataset.committed_algorithm :
    (committed H alg fmt chunks versions).merkleAttr.algorithm = alg :=
  fromLeafHashes_alg H _ alg

@[simp] theorem Dataset.committed_leaves : (committed H alg fmt chunks versions).leaves H =
      (leafPreimages fmt chunks versions).map (alg.hashRaw H) := by
  rw [leaves, committed_algorithm]
  rfl

/-- A writer's own dataset stores its leaf row, so both checks accept it. -/
theorem Dataset.committed_storesRow : StoresRow H (committed H alg fmt chunks versions)
      ((leafPreimages fmt chunks versions).map (alg.hashRaw H)) where
  nodes := congrArg flatNodes (by rw [committed_algorithm]; rfl)
  root := by rw [committed_algorithm]; rfl
  row := by
    rw [liveHashes, committed_leaves, paddedRow, length_map, length_leafPreimages]
    rfl
  le := by
    rw [length_map, length_leafPreimages]
    exact le_nextPowerOfTwo chunks.length

/-- It verifies if it has a chunk, and a version for each bound one. Then each chunk does alone. -/
theorem verifyDataset_committed : (verifyDataset H (committed H alg fmt chunks versions) =
      .ok true ↔ chunks ≠ [] ∧ (fmt = .bound → chunks.length ≤ versions.length)) ∧
    ((fmt = .bound → chunks.length ≤ versions.length) → ∀ i,
      verifyChunk H (committed H alg fmt chunks versions) i = .ok true ↔ i < chunks.length) := by
  have hrow := committed_storesRow (H := H) alg fmt chunks versions
  refine ⟨⟨fun h => ?_, fun h => hrow.verifyDataset_ok h.1 h.2⟩, fun hversions i =>
    ⟨fun h => (verifyChunk_eq_ok.mp h).1, hrow.verifyChunk_ok hversions⟩⟩
  obtain ⟨hne, _, _, _, hversions, _⟩ := verifyDataset_eq_ok.mp h
  exact ⟨hne, hversions⟩

end

end

/-! ### Soundness -/

section

variable {H : Hashers} {d : Dataset} {chunks : List Bytes} {versions : List UInt64}

/-- **Whole-dataset soundness.** Against the root of a tree honestly built over `chunks`,
whatever node array, chunks and versions the dataset holds, `verifyDataset` accepts only
`chunks` itself and, for bound leaves, their versions. -/
theorem verifyDataset_sound (fmt : LeafFormat)
    (hversions : fmt = .bound → versions.length = chunks.length)
    (hfmt : d.merkleAttr.leafFormat = fmt)
    (hroot : d.merkleAttr.root =
      (commitTree H d.merkleAttr.algorithm fmt chunks versions).root)
    (hcf : CollisionFree (d.merkleAttr.algorithm.hashRaw H)
      (commitPreimages H d.merkleAttr.algorithm fmt chunks versions ++ d.verifyPreimages H))
    (hok : verifyDataset H d = .ok true) :
    d.chunks = chunks ∧
      (fmt = .bound → ∀ i < chunks.length, d.chunkVersions[i]? = versions[i]?) := by
  subst hfmt
  obtain ⟨-, t, ht, hle, hlive, -, hrebuilt⟩ := verifyDataset_eq_ok.mp hok
  obtain ⟨a, ha⟩ := t.paddedCount_pow
  rw [rebuilt_eq_rowTree] at hrebuilt
  have hrows := rowPreimages_eq_of_root_eq hcf
    (occurs_liveRow ht fun x hx => mem_append_right _ hx)
    (occurs_commit fun x hx => mem_append_left _ hx) (hrebuilt.trans hroot)
  rw [ha, rowPreimages_liveRow (ha ▸ hle)] at hrows
  -- sentinels are no leaves, so both rows have the same leaves in front of their padding
  have hleaves := eq_of_append_replicate_eq nullPreimage_notMem_leafPreimages
    nullPreimage_notMem_leafPreimages hrows
  obtain ⟨hchunks, hversion⟩ := chunks_eq_of_leafPreimages_eq hleaves
  refine ⟨hchunks, fun hbound i hi => ?_⟩
  have hlen := hversions hbound
  have hlen' := hlive hbound
  rw [hchunks] at hlen' hversion
  exact getElem?_eq_of_getD_eq (by omega) (by omega) (hversion hbound i hi)

def twoBoundChunks : Dataset :=
  Dataset.committed sha256Only .sha256 .bound [[0x61], [0x62, 0x63]] [4, 9]

theorem twoBoundChunks_storesRow :
    StoresRow sha256Only twoBoundChunks (twoBoundChunks.leaves sha256Only) :=
  (committed_leaves _ _ _ _).symm ▸ committed_storesRow _ _ _ _

theorem verifyDataset_sound_twoBoundChunks :
    twoBoundChunks.chunks = [[0x61], [0x62, 0x63]] ∧
      (LeafFormat.bound = .bound → ∀ i < 2, twoBoundChunks.chunkVersions[i]? = [4, 9][i]?) :=
  @verifyDataset_sound sha256Only twoBoundChunks [[0x61], [0x62, 0x63]] [4, 9]
    .bound (by decide) rfl twoBoundChunks_storesRow.root (by decide +kernel)
    (twoBoundChunks_storesRow.verifyDataset_ok (by decide) fun _ => by decide)

/-- **Single-chunk soundness.** Against the root of a tree honestly built over `chunks`,
whatever node array the siblings are read from, `verifyChunk` accepts an index only when it
is committed, and then only the committed chunk and, for bound leaves, its version. -/
theorem verifyChunk_sound (fmt : LeafFormat) {idx : ℕ}
    (hversions : fmt = .bound → versions.length = chunks.length)
    (hfmt : d.merkleAttr.leafFormat = fmt)
    (hroot : d.merkleAttr.root =
      (commitTree H d.merkleAttr.algorithm fmt chunks versions).root)
    (hcf : CollisionFree (d.merkleAttr.algorithm.hashRaw H)
      (commitPreimages H d.merkleAttr.algorithm fmt chunks versions ++ d.chunkPreimages H idx))
    (hok : verifyChunk H d idx = .ok true) :
    idx < chunks.length ∧ d.chunks[idx]? = chunks[idx]? ∧
      (fmt = .bound → d.chunkVersions[idx]? = versions[idx]?) := by
  subst hfmt
  obtain ⟨hidx, t, ht, hle, hversion, p, hp, hclimb⟩ := verifyChunk_eq_ok.mp hok
  obtain ⟨-, -, -, halg⟩ := reconstructTree_eq_ok.mp ht
  obtain ⟨b, hb⟩ := t.paddedCount_pow
  have hidx' : idx < 2 ^ b := by omega
  -- the chunk's own leaf, as a preimage and as a digest
  obtain ⟨x, hx⟩ : ∃ x, d.livePreimages[idx]? = some x :=
    ⟨_, getElem?_eq_getElem (by simpa [livePreimages] using hidx)⟩
  have hdigest : (d.leaves H).getD idx default = d.merkleAttr.algorithm.hashRaw H x := by
    have : (d.leaves H)[idx]? = some (d.merkleAttr.algorithm.hashRaw H x) := by
      rw [leaves, getElem?_map]
      exact congrArg (Option.map _) hx
    rw [getD_eq_getElem?_getD, this, Option.getD_some]
  simp only [chunkPreimages, ht, hp, hx] at hcf
  rw [hdigest] at hclimb hcf
  obtain ⟨hfold, hpairs⟩ := computeRootFromHash_proof hb hidx' hp _
  rw [hfold, halg] at hclimb
  obtain ⟨-, hslot⟩ := getElem?_rowPreimages_of_climb hcf
    (occurs_commit fun y hy => mem_append_left _ hy) hidx'
    (mem_append_right _ mem_cons_self)
    (ne_pairPreimage_of_mem_leafPreimages (mem_of_getElem? hx))
    (fun q hq => mem_append_right _ (mem_cons_of_mem _
      (hpairs ▸ halg.symm ▸ mem_map_of_mem hq)))
    (hclimb.trans hroot)
  have hcommitted := getElem?_of_rowPreimages hslot fun h =>
    nullPreimage_notMem_leafPreimages (h ▸ mem_of_getElem? hx)
  have hlt : idx < chunks.length := by
    simpa using (List.getElem?_eq_some_iff.mp hcommitted).1
  obtain ⟨hchunk, hversion_eq⟩ := chunk_eq_of_getElem?_leafPreimages hx hcommitted
  refine ⟨hlt, hchunk, fun hbound => ?_⟩
  have hlen := hversions hbound
  exact getElem?_eq_of_getD_eq (hversion hbound) (by omega) (hversion_eq hbound)

theorem verifyChunk_sound_twoBoundChunks :
    1 < 2 ∧ twoBoundChunks.chunks[1]? = some [0x62, 0x63] ∧
      (LeafFormat.bound = .bound → twoBoundChunks.chunkVersions[1]? = some 9) :=
  @verifyChunk_sound sha256Only twoBoundChunks [[0x61], [0x62, 0x63]] [4, 9]
    .bound 1 (by decide) rfl twoBoundChunks_storesRow.root (by decide +kernel)
    (twoBoundChunks_storesRow.verifyChunk_ok (fun _ => by decide) (by decide))

end

end ClawHdf5.Merkle
