import ClawHdf5.Subset.Localize

/-!
# Extracting mesh proofs

The prover of a mesh proof takes the coarse leaves above a selection, their digests from the tree,
the siblings above the coarse row, and the digests of those members of the covered groups that are
not delivered. Members with the null digest are left out, as the verifier puts that in by itself.

The coarse row of the tree is the leaf row of the tree that ends there, so the siblings are
collected and checked as in a proof for single chunks. What is left is that the verifier resolves
every member of a covered group to its digest in the tree.
-/

namespace ClawHdf5.Subset

open Fallible LevelOrder MachineInt Merkle SortDedup List MerkleTree

/-! ### Extraction -/

/-- Fill in the digest of a leaf that is not delivered, unless it is null. The source looks the leaf
up in the sorted indices by binary search. -/
def fillLeaf (nodes : List Hash) (internalNodes : ℕ) (null : Hash) (fineIndices : List UInt64)
    (fillIn : NodeMap) (leaf : ℕ) : Except MerkleError NodeMap :=
  if UInt64.ofNat leaf ∈ fineIndices then .ok fillIn
  else do
    let h ← okOr (.hyperslabOutOfBounds leaf) nodes[internalNodes + leaf]?
    .ok (if constantTimeEq h null then fillIn else fillIn.insert (UInt64.ofNat leaf) h)

/-- The leaves below a coarse leaf that the tree has. -/
def groupLeaves (level : MeshLevel) (paddedCount : ℕ) (coarse : UInt64) : List ℕ :=
  let range := level.leafRange coarse
  range' range.1.toNat (min range.2.toNat paddedCount - range.1.toNat)

/-- The digests to fill in. A proof for single chunks has none. -/
def fillGroups (tree : MerkleTree) (null : Hash) (fineIndices coarseIndices : List UInt64)
    (level : MeshLevel) : Except MerkleError NodeMap :=
  if level.level ≠ 0 then
    (coarseIndices.flatMap (groupLeaves level tree.paddedCount)).foldlM
      (fillLeaf tree.nodes (tree.paddedCount - 1) null fineIndices) ∅
  else .ok ∅

/-- Extract the mesh proof for a selection. -/
def extractSubsetMesh (H : Hashers) (tree : MerkleTree) (grid : ChunkGridParams)
    (sel : Selection) (order : LeafOrder) (construction : ProofConstruction) (level : MeshLevel) :
    Except (Halt MerkleError) MeshProof := do
  let fineIndices ← computeExpectedChunkIndices grid sel order
  let coarseRow ← returning (level.coarseRowLen tree.paddedCount)
  let coarseIndices := coarseCover fineIndices level
  let coarseHashes ← returning <| coarseIndices.mapM fun c => do
    let node ← level.coarseNodeIndex tree.paddedCount c.toNat
    okOr (.hyperslabOutOfBounds c.toNat) tree.nodes[node]?
  let fillIn ← returning
    (fillGroups tree (tree.alg.nullSentinel H) fineIndices coarseIndices level)
  let proofNodes ← returning (collectRow tree.nodes coarseRow coarseIndices construction)
  .ok
    { coarseIndices := coarseIndices
      coarseHashes := coarseHashes
      proofNodes := proofNodes
      fillIn := fillIn
      gridParams := grid
      level := level
      coverageCert := meshCoverageCert H coarseIndices level grid.gridHash tree.alg }

/-! ### What is filled in -/

section

variable {nodes : List Hash} {null : Hash} {fine : List UInt64} {a : ℕ}
  (hlength : nodes.length = 2 ^ (a + 1) - 1) (ha : a ≤ 39)

variable (nodes null fine a) in
/-- A leaf whose digest the verifier can have neither from the delivery nor by itself. -/
def Missing (i : UInt64) : Prop := i ∉ fine ∧ label nodes (2 ^ a + i.toNat) ≠ null
  deriving Decidable

include hlength ha

theorem fillLeaf_spec (fillIn : NodeMap) {leaf : ℕ} (hleaf : leaf < 2 ^ a) :
    ∃ filled, fillLeaf nodes (2 ^ a - 1) null fine fillIn leaf = .ok filled ∧
      ∀ i, filled[i]? = if i.toNat = leaf ∧ Missing nodes null fine a i then
        some (label nodes (2 ^ a + i.toNat)) else fillIn[i]? := by
  have hpow : 2 ^ a ≤ 2 ^ 39 := Nat.pow_le_pow_right two_pos ha
  have hword : (UInt64.ofNat leaf).toNat = leaf :=
    UInt64.toNat_ofNat_of_lt' (hleaf.trans_le (hpow.trans (by decide)))
  have heq : ∀ i : UInt64, i.toNat = leaf ↔ i = UInt64.ofNat leaf := fun i => by
    rw [← UInt64.toNat_inj, hword]
  have hstored : nodes[2 ^ a - 1 + leaf]? = some (label nodes (2 ^ a + leaf)) := by
    have hposition : 2 ^ a + leaf - 1 = 2 ^ a - 1 + leaf := by omega
    have hlt : 2 ^ a - 1 + leaf < nodes.length := by
      omega
    rw [label, hposition, getD_eq_getElem?_getD, getElem?_eq_getElem hlt, Option.getD_some]
  unfold fillLeaf
  by_cases hfine : UInt64.ofNat leaf ∈ fine
  · rw [if_pos hfine]
    refine ⟨fillIn, rfl, fun i => (if_neg ?_).symm⟩
    rintro ⟨hi, hmissing, _⟩
    rw [(heq i).mp hi] at hmissing
    exact hmissing hfine
  · rw [if_neg hfine, hstored]
    refine ⟨_, rfl, fun i => ?_⟩
    by_cases hi : i.toNat = leaf
    · obtain rfl := (heq i).mp hi
      rw [hword]
      by_cases hnull : label nodes (2 ^ a + leaf) = null
      · rw [if_pos (constantTimeEq_iff.mpr hnull), if_neg]
        rintro ⟨_, _, hne⟩
        rw [hword] at hne
        exact hne hnull
      · rw [if_neg (fun h => hnull (constantTimeEq_iff.mp h)), Std.TreeMap.getElem?_insert_self,
          if_pos ⟨rfl, hfine, by rwa [hword]⟩]
    · have hne : UInt64.ofNat leaf ≠ i := fun h => hi (by rw [← h, hword])
      have hother : ¬ (i.toNat = leaf ∧ Missing nodes null fine a i) := fun h => hi h.1
      split_ifs
      · rfl
      · rw [Std.TreeMap.getElem?_insert, if_neg]
        exact fun h => hne (Std.compare_eq_iff_eq.mp h)

theorem foldlM_fillLeaf (fillIn : NodeMap) {leaves : List ℕ} (hleaves : ∀ i ∈ leaves, i < 2 ^ a) :
    ∃ filled, leaves.foldlM (fillLeaf nodes (2 ^ a - 1) null fine) fillIn = .ok filled ∧
      ∀ i, filled[i]? = if i.toNat ∈ leaves ∧ Missing nodes null fine a i then
        some (label nodes (2 ^ a + i.toNat)) else fillIn[i]? := by
  induction leaves generalizing fillIn with
  | nil => exact ⟨fillIn, rfl, fun i => (if_neg fun h => not_mem_nil h.1).symm⟩
  | cons leaf leaves ih =>
    obtain ⟨hleaf, hrest⟩ := forall_mem_cons.mp hleaves
    obtain ⟨next, hnext, hspec⟩ := fillLeaf_spec hlength ha fillIn hleaf
    obtain ⟨filled, hfilled, hall⟩ := ih next hrest
    refine ⟨filled, ?_, fun i => ?_⟩
    · rw [foldlM_cons, hnext, ok_bind, hfilled]
    · rw [hall, hspec]
      by_cases hmissing : Missing nodes null fine a i
      · simp only [hmissing, and_true, mem_cons]
        by_cases hhead : i.toNat = leaf
        · rw [if_pos hhead, ite_self, if_pos (.inl hhead)]
        · simp [hhead]
      · simp [hmissing]

end

/-! ### Covered groups -/

section

variable {tree : MerkleTree} {fine : List UInt64}
  {level : MeshLevel} {a : ℕ}

section

variable (ha : a ≤ 39) (hlevel : level.level.toNat ≤ a) {c : UInt64}
  (hc : c.toNat < 2 ^ (a - level.level.toNat))
include ha hlevel hc

/-- The leaves below a coarse leaf of the row. -/
theorem MeshLevel.leafRange_of_lt : (level.leafRange c).1.toNat = c.toNat * 2 ^ level.level.toNat ∧
      (level.leafRange c).2.toNat = c.toNat * 2 ^ level.level.toNat + 2 ^ level.level.toNat ∧
      c.toNat * 2 ^ level.level.toNat + 2 ^ level.level.toNat ≤ 2 ^ a := by
  have hpow : 2 ^ a ≤ 2 ^ 39 := Nat.pow_le_pow_right two_pos ha
  have hend : (c.toNat + 1) * 2 ^ level.level.toNat ≤ 2 ^ a := by
    calc (c.toNat + 1) * 2 ^ level.level.toNat
        ≤ 2 ^ (a - level.level.toNat) * 2 ^ level.level.toNat := Nat.mul_le_mul_right _ hc
      _ = 2 ^ a := by rw [← pow_add, Nat.sub_add_cancel hlevel]
  obtain ⟨hlo, hhi⟩ := level.toNat_leafRange c
  rw [Nat.mod_eq_of_lt (by omega)] at hhi
  rw [Nat.succ_mul] at hhi hend
  have hstart := le_self_add.trans hend
  rw [Nat.mod_eq_of_lt (by omega)] at hlo
  exact ⟨hlo, hhi, hend⟩

theorem groupLeaves_eq : groupLeaves level (2 ^ a) c =
      range' (c.toNat * 2 ^ level.level.toNat) (2 ^ level.level.toNat) := by
  obtain ⟨hlo, hhi, hend⟩ := level.leafRange_of_lt ha hlevel hc
  rw [groupLeaves, hlo, hhi, min_eq_left hend, Nat.add_sub_cancel_left]

end

theorem lt_of_mem_coarseCover (hlevel : level.level.toNat ≤ a) (hfine : ∀ i ∈ fine, i.toNat < 2 ^ a)
    {c : UInt64} (hc : c ∈ coarseCover fine level) : c.toNat < 2 ^ (a - level.level.toNat) := by
  obtain ⟨i, hi, rfl⟩ := mem_map.mp (mem_sortDedup.mp hc)
  rw [level.toNat_coarseIndex, Nat.div_lt_iff_lt_mul (Nat.two_pow_pos _), ← pow_add,
    Nat.sub_add_cancel hlevel]
  exact hfine i hi

theorem coarseCover_level_zero (hzero : level.level = 0)
    (hsorted : fine.Pairwise fun i j => i ≤ j ∧ i ≠ j) : coarseCover fine level = fine := by
  have hself : fine.map level.coarseIndex = fine := by
    conv_rhs => rw [← map_id fine]
    refine map_congr_left fun i _ => UInt64.toNat_inj.mp ?_
    rw [level.toNat_coarseIndex, hzero]
    exact Nat.div_one _
  rw [coarseCover, hself, sortDedup_of_pairwise hsorted]

/-- What a proof fills in: the missing leaves of the covered groups. -/
theorem fillGroups_spec (null : Hash) (hpadded : tree.paddedCount = 2 ^ a) (ha : a ≤ 39)
    (hlevel : level.level.toNat ≤ a) {coarse : List UInt64}
    (hcoarse : ∀ c ∈ coarse, c.toNat < 2 ^ (a - level.level.toNat)) :
    ∃ filled, fillGroups tree null fine coarse level = .ok filled ∧ ∀ i x, filled[i]? = some x ↔
        (level.level ≠ 0 ∧ ∃ c ∈ coarse, i.toNat ∈ groupLeaves level (2 ^ a) c) ∧
          Missing tree.nodes null fine a i ∧ x = label tree.nodes (2 ^ a + i.toNat) := by
  unfold fillGroups
  by_cases hzero : level.level = 0
  · rw [if_neg (not_not.mpr hzero)]
    refine ⟨∅, rfl, fun i x => iff_of_false ?_ fun h => h.1.1 hzero⟩
    rw [Std.TreeMap.getElem?_emptyc]
    exact fun h => nomatch h
  · have hlength : tree.nodes.length = 2 ^ (a + 1) - 1 := by
      rw [tree.length_nodes, hpadded, pow_succ']
    have hleaves : ∀ i ∈ coarse.flatMap (groupLeaves level (2 ^ a)), i < 2 ^ a := by
      intro i hi
      obtain ⟨c, hc, hmem⟩ := mem_flatMap.mp hi
      obtain ⟨-, -, hend⟩ := level.leafRange_of_lt ha hlevel (hcoarse c hc)
      rw [groupLeaves_eq ha hlevel (hcoarse c hc), mem_range'_1] at hmem
      omega
    rw [if_pos hzero, hpadded]
    obtain ⟨filled, hfilled, hspec⟩ :=
      @foldlM_fillLeaf tree.nodes null fine a hlength ha ∅ _ hleaves
    refine ⟨filled, hfilled, fun i x => ?_⟩
    rw [hspec, Std.TreeMap.getElem?_emptyc, ← mem_flatMap, and_iff_right hzero]
    split_ifs with hfill
    · rw [Option.some.injEq, eq_comm]
      exact ⟨fun h => ⟨hfill.1, hfill.2, h⟩, fun h => h.2.2⟩
    · exact iff_of_false (fun h => nomatch h) fun h => hfill ⟨h.1, h.2.1⟩

end

/-! ### Folding an honest delivery -/

section

variable {H : Hashers} {alg : HashAlg} {nodes : List Hash} {fine : List UInt64}
  {data : UInt64 → Bytes} {level : MeshLevel} {a : ℕ} {filled : NodeMap} {Covered : UInt64 → Prop}

def chunksAt (data : UInt64 → Bytes) (fine : List UInt64) : List ChunkData :=
  fine.map fun i => ⟨i, data i⟩

theorem map_index_chunksAt : (chunksAt data fine).map ChunkData.index = fine := by
  rw [chunksAt, map_map]
  exact map_id fine

/-- Every member of a covered group is resolved to its digest in the tree. -/
theorem resolve_honest (hnodup : fine.Nodup)
    (hdata : ∀ i ∈ fine, alg.hashLeaf H (data i) = label nodes (2 ^ a + i.toNat))
    (hfilled : ∀ i x, filled[i]? = some x ↔ Covered i ∧
      Missing nodes (alg.nullSentinel H) fine a i ∧ x = label nodes (2 ^ a + i.toNat))
    {i : UInt64} (hi : i ∈ fine ∨ Covered i) :
    resolve H alg (chunksAt data fine) filled i = label nodes (2 ^ a + i.toNat) := by
  by_cases hfine : i ∈ fine
  · rw [← hdata i hfine]
    refine resolve_delivered (c := ⟨i, data i⟩) ?_ filled (mem_map_of_mem hfine)
    rwa [map_index_chunksAt]
  · have hcovered := hi.resolve_left hfine
    have hdelivered : (Std.TreeMap.ofList ((chunksAt data fine).map fun c =>
        (c.index, alg.hashLeaf H c.data)) : NodeMap)[i]? = none := by
      apply Std.TreeMap.getElem?_ofList_of_contains_eq_false
      have hindices : ((chunksAt data fine).map fun c => (c.index, alg.hashLeaf H c.data)).map
          Prod.fst = fine := by
        rw [map_map]
        exact map_index_chunksAt
      rwa [hindices, ← Bool.not_eq_true, contains_iff_mem]
    rw [resolve, hdelivered]
    -- a member that is neither delivered nor filled in has the null digest
    by_cases hnull : label nodes (2 ^ a + i.toNat) = alg.nullSentinel H
    · have hempty : filled[i]? = none := by
        rw [Option.eq_none_iff_forall_ne_some]
        intro x hx
        exact ((hfilled i x).mp hx).2.1.2 hnull
      rw [hempty, hnull]
      rfl
    · rw [(hfilled i _).mpr ⟨hcovered, ⟨hfine, hnull⟩, rfl⟩]
      rfl

/-- The verifier's fold of a covered group is the node of the tree. -/
theorem foldGroup_honest (ht : IsHashed (alg.hashPair H) a (label nodes)) (ha : a ≤ 39)
    (hlevel : level.level.toNat ≤ a) {c : UInt64} (hc : c.toNat < 2 ^ (a - level.level.toNat))
    {member : UInt64 → Hash}
    (hmember : ∀ i ∈ groupLeaves level (2 ^ a) c,
      member (UInt64.ofNat i) = label nodes (2 ^ a + i)) :
    foldGroup H alg level c (2 ^ a) member =
      .ok (label nodes (2 ^ (a - level.level.toNat) + c.toNat)) := by
  obtain ⟨hlo, hhi, hend⟩ := level.leafRange_of_lt ha hlevel hc
  rw [groupLeaves_eq ha hlevel hc] at hmember
  have hrow : groupRow H alg level c (2 ^ a) member =
      (below level.level.toNat (2 ^ (a - level.level.toNat) + c.toNat)).map (label nodes) := by
    rw [groupRow, hlo, hhi, Nat.add_sub_cancel_left, below_row hlevel, map_map]
    refine map_congr_left fun i hi => ?_
    have hlt := mem_range'_1.mp hi
    rw [if_pos (by omega), hmember i hi, Function.comp_apply]
  have hlength : ((below level.level.toNat (2 ^ (a - level.level.toNat) + c.toNat)).map
      (label nodes)).length = 2 ^ level.level.toNat := by
    rw [length_map, below_eq_range', length_range']
  rw [foldGroup, hrow, foldRow_ok hlength (hlength ▸ Nat.lt_two_pow_self.le),
    ht.foldUp_below (by omega) (row_bound hlevel hc)]

/-- Groups whose folds are the digests that the proof carries are not suspect. -/
theorem foldGroups_honest {paddedCount i : ℕ} {member : UInt64 → Hash} {digest : UInt64 → Hash}
    {coarse : List UInt64} {coarseHashes : List Hash}
    (hfold : ∀ c ∈ coarse, foldGroup H alg level c paddedCount member = .ok (digest c))
    (hhashes : coarseHashes.drop i = coarse.map digest) :
    foldGroups H alg level paddedCount member coarseHashes i coarse =
      .ok (coarse.map digest, []) := by
  induction coarse generalizing i with
  | nil => rfl
  | cons c coarse ih =>
    obtain ⟨hc, hrest⟩ := forall_mem_cons.mp hfold
    have hindex : (index coarseHashes i : Except (Halt MerkleError) _) = .ok (digest c) := by
      rw [index_eq_ok, ← add_zero i, ← getElem?_drop, hhashes]
      rfl
    have htail : coarseHashes.drop (i + 1) = coarse.map digest := by
      rw [← drop_drop, hhashes]
      rfl
    rw [foldGroups, hc, ok_bind, hindex, ok_bind, ih hrest htail, ok_bind]
    dsimp only
    rw [if_pos (constantTimeEq_iff.mpr rfl), map_cons]

section

variable {root : Hash} {proofNodes : NodeMap} {coarseRow : ℕ} {leaves : List (UInt64 × Hash)}

/-- Walks that all reach the root leave nothing suspect. -/
theorem suspectPaths_of_checkPaths
    (h : checkPaths H alg root proofNodes coarseRow leaves = .ok true) :
    suspectPaths H alg root proofNodes coarseRow leaves [] = .ok [] := by
  induction leaves with
  | nil => rfl
  | cons first rest ih =>
    simp only [checkPaths, bind_ok_iff, reject_eq_ok, exists_const, not_not] at h
    obtain ⟨current, hwalk, hroot, hrest⟩ := h
    rw [suspectPaths, hwalk, ok_bind, if_neg (fun hbad => hbad.1 hroot), ih hrest]

/-- A proof for the coarse row that is accepted verifies the mesh. -/
theorem meshVerdict_of_checkProof {construction : ProofConstruction}
    (h : checkProof H alg root proofNodes coarseRow leaves construction = .ok true) :
    meshVerdict H alg root proofNodes coarseRow leaves [] construction = .ok .verified := by
  cases construction with
  | canonicalPruned =>
    simp only [checkProof, checkRebuilt, bind_ok_iff, reject_eq_ok, exists_const, not_not] at h
    obtain ⟨rebuilt, hrebuilt, computedRoot, hcomputed, hroot, -⟩ := h
    rw [meshVerdict, knownLeaves, hrebuilt, ok_bind, hcomputed, ok_bind, if_pos hroot]
  | naiveDedup =>
    rw [meshVerdict, suspectPaths_of_checkPaths h]
    rfl

end

end

/-! ### Completeness -/

section

variable {H : Hashers} {alg : HashAlg} {tree : MerkleTree} {grid : ChunkGridParams}
  {sel : Selection} {fine : List UInt64} {data : UInt64 → Bytes} {level : MeshLevel}
  {coarseRow a : ℕ}

/-- The digests of coarse leaves are nodes of the tree. -/
theorem mapM_coarseNodeIndex (hpadded : tree.paddedCount = 2 ^ a)
    (hrow : level.coarseRowLen (2 ^ a) = .ok coarseRow) {coarse : List UInt64}
    (hcoarse : ∀ c ∈ coarse, c.toNat < 2 ^ (a - level.level.toNat)) :
    (coarse.mapM fun c => do
      let node ← level.coarseNodeIndex tree.paddedCount c.toNat
      okOr (MerkleError.hyperslabOutOfBounds c.toNat) tree.nodes[node]?) =
      .ok (coarse.map fun c => label tree.nodes (2 ^ (a - level.level.toNat) + c.toNat)) := by
  obtain ⟨hlevel, hrowEq⟩ := level.coarseRowLen_two_pow hrow
  refine mapM_eq fun c hc => ?_
  have hlt := hcoarse c hc
  have hle : 2 ^ (a - level.level.toNat) ≤ 2 ^ a := Nat.pow_le_pow_right two_pos (by omega)
  have hinside : coarseRow - 1 + c.toNat < tree.nodes.length := by
    rw [tree.length_nodes]
    omega
  have hposition : 2 ^ (a - level.level.toNat) + c.toNat - 1 = coarseRow - 1 + c.toNat := by omega
  rw [MeshLevel.coarseNodeIndex, hpadded, hrow, ok_bind, ok_bind,
    getElem?_eq_getElem hinside, okOr, label, hposition, getD_eq_getElem _ _ hinside]

/-- The leaf digests of a tree, as a proof for single chunks lists them. -/
theorem traverseIdx_leafHash (hpadded : tree.paddedCount = 2 ^ a)
    (hfine : ∀ i ∈ fine, i.toNat < tree.leafCount) (k : ℕ) :
    traverseIdx (fun _ (leafIdx : UInt64) =>
        okOr (MerkleError.hyperslabOutOfBounds leafIdx.toNat) (tree.leafHash leafIdx.toNat)) k
      fine = .ok (fine.map fun i => label tree.nodes (2 ^ a + i.toNat)) := by
  induction fine generalizing k with
  | nil => rfl
  | cons i fine ih =>
    obtain ⟨hi, hrest⟩ := forall_mem_cons.mp hfine
    have hone := Nat.two_pow_pos a
    have hposition : 2 ^ a + i.toNat - 1 = 2 ^ a - 1 + i.toNat := by omega
    rw [traverseIdx, leafHash, if_neg (not_le.mpr hi), okOr, ok_bind, ih hrest,
      ok_bind, hpadded, map_cons, label, hposition]

/-- What a mesh proof over leaves `fine` of a tree of height `a` holds: the nodes above the leaves,
siblings with which they are accepted, and the missing members of their groups. -/
structure MeshExtracted (H : Hashers) (tree : MerkleTree) (grid : ChunkGridParams)
    (fine : List UInt64) (construction : ProofConstruction) (level : MeshLevel) (a coarseRow : ℕ)
    (p : MeshProof) : Prop where
  indices_eq : p.coarseIndices = coarseCover fine level
  hashes_eq : p.coarseHashes = (coarseCover fine level).map fun c =>
    label tree.nodes (2 ^ (a - level.level.toNat) + c.toNat)
  grid_eq : p.gridParams = grid
  cert_eq :
    p.coverageCert = meshCoverageCert H (coarseCover fine level) level grid.gridHash tree.alg
  nodes_eq : collectRow tree.nodes coarseRow (coarseCover fine level) construction =
    .ok p.proofNodes
  accepted : checkProof H tree.alg tree.root p.proofNodes coarseRow
    ((coarseCover fine level).zip p.coarseHashes) construction = .ok true
  filled : ∀ i x, p.fillIn[i]? = some x ↔ (level.level ≠ 0 ∧
      ∃ c ∈ coarseCover fine level, i.toNat ∈ groupLeaves level (2 ^ a) c) ∧
    Missing tree.nodes (tree.alg.nullSentinel H) fine a i ∧
    x = label tree.nodes (2 ^ a + i.toNat)

section

variable {construction : ProofConstruction} {p : MeshProof}
  (hindices : computeExpectedChunkIndices grid sel .rowMajor = .ok fine)
  (hpadded : tree.paddedCount = 2 ^ a) (ha : a ≤ 39)
  (hrow : level.coarseRowLen (2 ^ a) = .ok coarseRow)
  (hinside : ∀ i ∈ fine, i.toNat < 2 ^ a)
  (ht : IsHashed (tree.alg.hashPair H) a (label tree.nodes))

include hindices hrow

include hpadded ha hinside ht in
theorem extractSubsetMesh_spec (hne : fine ≠ []) :
    ∃ p, extractSubsetMesh H tree grid sel .rowMajor construction level = .ok p ∧
      MeshExtracted H tree grid fine construction level a coarseRow p := by
  obtain ⟨hlevel, hrowEq⟩ := level.coarseRowLen_two_pow hrow
  have hcoarse : ∀ c ∈ coarseCover fine level, c.toNat < 2 ^ (a - level.level.toNat) :=
    fun c hc => lt_of_mem_coarseCover hlevel hinside hc
  have hle : 2 ^ (a - level.level.toNat) ≤ 2 ^ a := Nat.pow_le_pow_right two_pos (by omega)
  -- the tree down to the coarse row
  have htop : IsHashed (tree.alg.hashPair H) (a - level.level.toNat) (label tree.nodes) :=
    fun m h1 hm => ht m h1 (hm.trans_le hle)
  have hlength : 2 ^ (a - level.level.toNat + 1) - 1 ≤ tree.nodes.length := by
    rw [tree.length_nodes]
    omega
  generalize hdigest : (fun c : UInt64 =>
    label tree.nodes (2 ^ (a - level.level.toNat) + c.toNat)) = digest
  have hfst : ((coarseCover fine level).zip ((coarseCover fine level).map digest)).map Prod.fst =
      coarseCover fine level := by
    rw [← map_prod_left_eq_zip, map_map]
    exact map_id _
  have hlabelled : LabelledLeaves tree.nodes (a - level.level.toNat)
      ((coarseCover fine level).zip ((coarseCover fine level).map digest)) := by
    intro leaf hleaf
    rw [← map_prod_left_eq_zip] at hleaf
    obtain ⟨c, hc, rfl⟩ := mem_map.mp hleaf
    exact ⟨hcoarse c hc, by rw [← hdigest]⟩
  obtain ⟨proofNodes, hcollect, hcheck⟩ := checkProof_collectRow htop (by omega) hlength
    construction (hfst.symm ▸ nodup_sortDedup _) hlabelled
  obtain ⟨filled, hfill, hfilled⟩ :=
    @fillGroups_spec tree fine level a (tree.alg.nullSentinel H) hpadded ha hlevel _ hcoarse
  have hnonempty : (coarseCover fine level).zip ((coarseCover fine level).map digest) ≠ [] := by
    obtain ⟨i, hi⟩ := exists_mem_of_ne_nil fine hne
    have hmem : level.coarseIndex i ∈ coarseCover fine level :=
      mem_sortDedup.mpr (mem_map_of_mem hi)
    rw [← map_prod_left_eq_zip]
    exact ne_nil_of_mem (mem_map_of_mem hmem)
  have hhashes := mapM_coarseNodeIndex hpadded hrow hcoarse
  rw [hdigest] at hhashes
  rw [hfst, ← hrowEq] at hcollect
  rw [← hrowEq] at hcheck
  refine ⟨⟨coarseCover fine level, (coarseCover fine level).map digest, proofNodes, filled, grid,
    level, meshCoverageCert H (coarseCover fine level) level grid.gridHash tree.alg⟩, ?_, rfl,
    by rw [hdigest], rfl, rfl, hcollect, hcheck.mpr (.inr hnonempty), hfilled⟩
  rw [← hpadded] at hrow
  rw [extractSubsetMesh, hindices]
  simp [hrow, hhashes, hfill, hcollect, returning]

include hpadded in
/-- On level 0 the proof is the proof for single chunks. -/
theorem MeshExtracted.native_of_level_zero
    (hp : MeshExtracted H tree grid fine construction level a coarseRow p)
    (hcount : ∀ i ∈ fine, i.toNat < tree.leafCount) (hzero : level.level = 0) :
    ∃ native, extractSubsetWith H tree grid sel .rowMajor construction = .ok native ∧
      p.coarseIndices = native.chunkIndices ∧ p.coarseHashes = native.leafHashes ∧
      p.proofNodes = native.proofNodes := by
  obtain ⟨-, hrowEq⟩ := level.coarseRowLen_two_pow hrow
  have hlevel : level.level.toNat = 0 := by rw [hzero]; rfl
  have hcover : coarseCover fine level = fine :=
    coarseCover_level_zero hzero ((sorted_of_computeExpectedChunkIndices hindices).and
      (nodup_of_computeExpectedChunkIndices hindices))
  have hhashes := hp.hashes_eq
  have hnodes := hp.nodes_eq
  rw [hlevel, Nat.sub_zero] at hrowEq
  rw [hcover, hlevel] at hhashes
  rw [hcover, hrowEq, ← hpadded, ← collectNodes_eq_collectRow] at hnodes
  refine ⟨⟨fine, fine.map fun i => label tree.nodes (2 ^ a + i.toNat), p.proofNodes, grid,
    coverageCert H fine grid.gridHash tree.alg⟩, ?_, hp.indices_eq.trans hcover, hhashes, rfl⟩
  rw [extractSubsetWith, hindices]
  simp only [traverseIdx_leafHash hpadded hcount, hnodes, returning, ok_bind]

include ha hinside in
/-- The verifier resolves the members of the covered groups to the leaves of the tree. -/
theorem MeshExtracted.resolve_member
    (hp : MeshExtracted H tree grid fine construction level a coarseRow p)
    (hdata : ∀ i ∈ fine, tree.alg.hashLeaf H (data i) = label tree.nodes (2 ^ a + i.toNat))
    {c : UInt64} (hc : c ∈ coarseCover fine level) {i : ℕ}
    (hi : i ∈ groupLeaves level (2 ^ a) c) :
    resolve H tree.alg (chunksAt data fine) p.fillIn (UInt64.ofNat i) =
      label tree.nodes (2 ^ a + i) := by
  obtain ⟨hlevel, -⟩ := level.coarseRowLen_two_pow hrow
  have hlt := lt_of_mem_coarseCover hlevel hinside hc
  obtain ⟨-, -, hend⟩ := level.leafRange_of_lt ha hlevel hlt
  have hrange := hi
  rw [groupLeaves_eq ha hlevel hlt, mem_range'_1] at hrange
  have hpow : 2 ^ a ≤ 2 ^ 39 := Nat.pow_le_pow_right two_pos ha
  have hnat : (UInt64.ofNat i).toNat = i :=
    UInt64.toNat_ofNat_of_lt' ((by omega : i < 2 ^ 39).trans (by decide))
  have hmember : UInt64.ofNat i ∈ fine ∨ (level.level ≠ 0 ∧
      ∃ c ∈ coarseCover fine level, (UInt64.ofNat i).toNat ∈ groupLeaves level (2 ^ a) c) := by
    by_cases hzero : level.level = 0
    · -- a group of level 0 is its leaf, and that is delivered
      left
      have hcover : coarseCover fine level = fine :=
        coarseCover_level_zero hzero ((sorted_of_computeExpectedChunkIndices hindices).and
          (nodup_of_computeExpectedChunkIndices hindices))
      have hself : UInt64.ofNat i = c := by
        have hlevel0 : level.level.toNat = 0 := by rw [hzero]; rfl
        rw [hlevel0] at hrange
        rw [← UInt64.toNat_inj]
        omega
      rwa [hself, ← hcover]
    · exact .inr ⟨hzero, c, hc, by rwa [hnat]⟩
  have hresolve := resolve_honest (nodup_of_computeExpectedChunkIndices hindices) hdata hp.filled
    hmember
  rwa [hnat] at hresolve

include ha hinside ht in
/-- The verifier accepts what was extracted, with the chunks of the tree. -/
theorem MeshExtracted.verifySubsetMesh
    (hp : MeshExtracted H tree grid fine construction level a coarseRow p)
    (hdata : ∀ i ∈ fine, tree.alg.hashLeaf H (data i) = label tree.nodes (2 ^ a + i.toNat))
    (hgrid : checkedPaddedLeafCount grid = .ok (2 ^ a))
    (hhash : computeGridHash H grid.dims grid.chunkShape grid.elemSize grid.layoutClass tree.alg =
      grid.gridHash) :
    verifySubsetMesh H tree.alg tree.root (chunksAt data fine) p grid grid.gridHash sel .rowMajor
      construction level = .ok .verified := by
  obtain ⟨hlevel, hrowEq⟩ := level.coarseRowLen_two_pow hrow
  have hfolds := foldGroups_honest
    (fun c hc => foldGroup_honest ht ha hlevel (lt_of_mem_coarseCover hlevel hinside hc)
      fun i hi => hp.resolve_member hindices ha hrow hinside hdata hc hi)
    (show p.coarseHashes.drop 0 = _ from hp.hashes_eq)
  have hverdict := meshVerdict_of_checkProof hp.accepted
  rw [hp.hashes_eq] at hverdict
  have hlength : (chunksAt data fine).length = fine.length := length_map _
  have hzip : ∀ c ∈ (chunksAt data fine).zip ((chunksAt data fine).map ChunkData.index),
      c.1.index = c.2 := by
    rw [← map_prod_left_eq_zip]
    exact forall_mem_map.mpr fun c _ => rfl
  rw [map_index_chunksAt] at hzip
  have haligned : ¬ ∃ c ∈ (chunksAt data fine).zip fine, c.1.index ≠ c.2 :=
    fun ⟨c, hc, hne⟩ => hne (hzip c hc)
  have hcounts : p.coarseHashes.length = p.coarseIndices.length := by
    rw [hp.hashes_eq, hp.indices_eq, length_map]
  rw [Subset.verifySubsetMesh]
  simp only [hhash, reject_of_not (not_not.mpr (constantTimeEq_iff.mpr rfl)), returning, ok_bind,
    hgrid, hrow, hindices, reject_of_not (not_not.mpr hlength), reject_of_not haligned,
    reject_of_not (not_not.mpr hp.indices_eq), reject_of_not (not_not.mpr hcounts), hp.grid_eq,
    hp.cert_eq, hfolds, hverdict]

end

theorem MeshLevel.coarseRowLen_of_le (ha : a < 64) (hlevel : 2 ^ level.level.toNat ≤ 2 ^ a) :
    level.coarseRowLen (2 ^ a) = .ok (2 ^ a >>> level.level.toNat) := by
  have hle : level.level.toNat ≤ a := (Nat.pow_le_pow_iff_right (by decide)).mp hlevel
  rw [MeshLevel.coarseRowLen, trailingZeros_two_pow ha, reject_bind (not_lt.mpr hle)]

variable {leafHashes : List Hash} {dims chunkShape : List UInt64} {elemSize : UInt32}
  {layoutClass : LayoutClass}

/-- **Mesh completeness.** Over a row-major tree of the grid's chunks, a proof for a selection that
touches a chunk is extracted at every level up to the root, and with the honest chunks it is
verified. On level 0 it is the proof for single chunks with nothing filled in. What is filled in are
leaves of the tree, and never null ones. -/
theorem extractSubsetMesh_verifies (construction : ProofConstruction)
    (hindices : computeExpectedChunkIndices
      (.new H dims chunkShape elemSize layoutClass alg) sel .rowMajor = .ok fine)
    (hne : fine ≠ [])
    (hcount : leafHashes.length =
      (ChunkGridParams.new H dims chunkShape elemSize layoutClass alg).totalChunkCount.toNat)
    (hlevel : 2 ^ level.level.toNat ≤ (MerkleTree.fromLeafHashes H leafHashes alg).paddedCount)
    (hdata : ∀ i ∈ fine, leafHashes[i.toNat]? = some (alg.hashLeaf H (data i))) :
    ∃ p, extractSubsetMesh H (.fromLeafHashes H leafHashes alg)
        (.new H dims chunkShape elemSize layoutClass alg) sel .rowMajor construction level =
          .ok p ∧
      verifySubsetMesh H alg (MerkleTree.fromLeafHashes H leafHashes alg).root
        (chunksAt data fine) p (.new H dims chunkShape elemSize layoutClass alg)
        (ChunkGridParams.new H dims chunkShape elemSize layoutClass alg).gridHash sel .rowMajor
        construction level = .ok .verified ∧
      (level.level = 0 →
        (∃ native, extractSubsetWith H (.fromLeafHashes H leafHashes alg)
            (.new H dims chunkShape elemSize layoutClass alg) sel .rowMajor construction =
              .ok native ∧
          p.coarseIndices = native.chunkIndices ∧ p.coarseHashes = native.leafHashes ∧
          p.proofNodes = native.proofNodes) ∧
        ∀ i : UInt64, p.fillIn[i]? = none) ∧
      ∀ (i : UInt64) (x : Hash), p.fillIn[i]? = some x →
        (paddedRow H leafHashes alg).getD i.toNat default = x ∧ x ≠ alg.nullSentinel H := by
  obtain ⟨paddedCount, -, hchecked, -⟩ := computeExpectedChunkIndices_eq_ok hindices
  have hvalid := validGrid_of_checked hchecked
  obtain ⟨a, ha, rfl⟩ := hvalid.height
  -- the tree over the chunks has the size the grid prescribes
  have hwidth : nextPowerOfTwo leafHashes.length = 2 ^ a := by
    rw [hcount, hvalid.toNat_totalChunkCount, ← hvalid.paddedCount_eq]
  have halg := fromLeafHashes_alg H leafHashes alg
  have hpadded := (fromLeafHashes_paddedCount H leafHashes alg).trans hwidth
  have hhashed := @fromLeafHashes_isHashed H leafHashes alg a hwidth
  have hleaf := @fromLeafHashes_leaf H leafHashes alg a hwidth
  have hinCount : ∀ i ∈ fine, i.toNat < leafHashes.length := by
    intro i hi
    rw [hcount, hvalid.toNat_totalChunkCount]
    exact lt_chunkTotal_of_mem hindices hi
  have hinside : ∀ i ∈ fine, i.toNat < 2 ^ a :=
    fun i hi => (hinCount i hi).trans_le (hwidth ▸ le_nextPowerOfTwo _)
  have hlabel : ∀ i ∈ fine, alg.hashLeaf H (data i) =
      label (fromLeafHashes H leafHashes alg).nodes (2 ^ a + i.toNat) := by
    intro i hi
    rw [hleaf, paddedRow, getD_append _ _ _ _ (hinCount i hi), getD_eq_getElem?_getD,
      hdata i hi, Option.getD_some]
  have hcounted : ∀ i ∈ fine, i.toNat < (fromLeafHashes H leafHashes alg).leafCount := by
    rwa [fromLeafHashes_leafCount]
  generalize fromLeafHashes H leafHashes alg = tree at *
  subst halg
  rw [hpadded] at hlevel
  have hrow := MeshLevel.coarseRowLen_of_le (by omega) hlevel
  obtain ⟨p, hextract, hp⟩ := @extractSubsetMesh_spec H tree _ sel fine level _ a construction
    hindices hpadded ha hrow hinside hhashed hne
  refine ⟨p, hextract, hp.verifySubsetMesh hindices ha hrow hinside hhashed hlabel hchecked rfl,
    fun hzero => ⟨hp.native_of_level_zero hindices hpadded hrow hcounted hzero, fun i => ?_⟩,
    fun i x hx => ?_⟩
  · rw [Option.eq_none_iff_forall_ne_some]
    exact fun x hx => ((hp.filled i x).mp hx).1.1 hzero
  · obtain ⟨-, hmissing, rfl⟩ := (hp.filled i x).mp hx
    exact ⟨(hleaf i.toNat).symm, hmissing.2⟩

/-- The first of three chunks, one level above the leaves: the second chunk is filled in. -/
theorem extractSubsetMesh_verifies_firstOfThree :
    ∃ p, extractSubsetMesh sha256Only
        (.fromLeafHashes sha256Only
          [HashAlg.sha256.hashLeaf sha256Only [0x61], zeroHash, zeroHash] .sha256)
        (.new sha256Only [3] [1] 1 .chunked .sha256) (.points [[0]]) .rowMajor .canonicalPruned
        ⟨1, by decide⟩ = .ok p ∧
      verifySubsetMesh sha256Only .sha256
        (MerkleTree.fromLeafHashes sha256Only
          [HashAlg.sha256.hashLeaf sha256Only [0x61], zeroHash, zeroHash] .sha256).root
        (chunksAt (fun _ => [0x61]) [0]) p (.new sha256Only [3] [1] 1 .chunked .sha256)
        (ChunkGridParams.new sha256Only [3] [1] 1 .chunked .sha256).gridHash (.points [[0]])
        .rowMajor .canonicalPruned ⟨1, by decide⟩ = .ok .verified := by
  obtain ⟨p, hextract, hverify, -⟩ := @extractSubsetMesh_verifies sha256Only .sha256 (.points [[0]])
    [0] (fun _ => [0x61]) ⟨1, by decide⟩
    [HashAlg.sha256.hashLeaf sha256Only [0x61], zeroHash, zeroHash] [3] [1] 1 .chunked
    .canonicalPruned (by decide +kernel) (by simp) (by decide +kernel) (by decide +kernel) (by simp)
  exact ⟨p, hextract, hverify⟩

end

end ClawHdf5.Subset
