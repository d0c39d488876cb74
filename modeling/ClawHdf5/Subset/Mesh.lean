import ClawHdf5.Subset.Completeness

/-!
# Overlay meshes

A mesh proof addresses a selection through coarse leaves, each an inner node above `2 ^ level`
chunks. The verifier folds every covered group from the delivered chunks, digests the prover
supplies for the other members, and null sentinels, and leads the folded digests to the root.

The prover is free in everything but the delivered indices. Soundness follows because a fold
continues the paths of the coarse row down to the leaf row, so the root binds every member of
a covered group, also those the prover filled in, and a delivered chunk is one of them.
-/

namespace ClawHdf5.Subset

open Bytes Fallible LevelOrder MachineInt Merkle SortDedup List Nat Except

variable {x : Hash} {suspect : List UInt64} {c : ChunkData} {a : ℕ}

/-! ### Levels -/

/-- How many levels above the leaf row the coarse leaves sit. -/
structure MeshLevel where
  level : UInt32
  le : level ≤ 63
  deriving DecidableEq

namespace MeshLevel

variable (l : MeshLevel)

def coarseIndex (leaf : UInt64) : UInt64 := leaf >>> l.level.toUInt64

/-- The leaves below a coarse leaf, as a half-open range. -/
def leafRange (coarse : UInt64) : UInt64 × UInt64 :=
  (coarse <<< l.level.toUInt64, (coarse + 1) <<< l.level.toUInt64)

/-- The number of coarse leaves. -/
def coarseRowLen (paddedCount : ℕ) : Except MerkleError ℕ := do
  let height := trailingZeros paddedCount
  reject (l.level.toNat > height) (.meshLevelTooCoarse l.level.toNat height)
  .ok (paddedCount >>> l.level.toNat)

end MeshLevel

/-- A subset proof at coarse granularity. -/
structure MeshProof where
  coarseIndices : List UInt64
  coarseHashes : List Hash
  proofNodes : NodeMap
  fillIn : NodeMap
  gridParams : ChunkGridParams
  level : MeshLevel
  coverageCert : Hash

/-- The outcome of a coarse verification. -/
inductive MeshVerdict
  | verified
  | suspect (coarse : List UInt64)
  deriving DecidableEq

/-- The certificate that binds a coarse index set and its level to a grid. -/
def meshCoverageCert (H : Hashers) (sortedCoarse : List UInt64) (level : MeshLevel)
    (gridHash : Hash) (alg : HashAlg) : Hash :=
  alg.hashLeaf H (sortedCoarse.flatMap le64 ++ le32 level.level ++ gridHash.val)

/-- The coarse leaves above a set of leaves. -/
def coarseCover (fineIndices : List UInt64) (level : MeshLevel) : List UInt64 :=
  sortDedup (· ≤ ·) (fineIndices.map level.coarseIndex)

/-! ### Folding -/

section

variable (H : Hashers) (alg : HashAlg)

/-- Hash the adjacent pairs of a row. A half pair is indexed out of bounds. -/
def pairRow : List Hash → Except (Halt MerkleError) (List Hash)
  | [] => .ok []
  | [_] => .error .panic
  | left :: right :: row => do
    let above ← pairRow row
    .ok (alg.hashPair H left right :: above)

/-- Pair up until one digest is left. Every round halves the row, so as many rounds as the row
is long suffice. -/
def foldRow : ℕ → List Hash → Except (Halt MerkleError) Hash
  | 0, row => index row 0
  | fuel + 1, row =>
    if row.length > 1 then do
      let above ← pairRow H alg row
      foldRow fuel above
    else index row 0

/-- The leaf digests of a coarse group. -/
def groupRow (level : MeshLevel) (coarse : UInt64) (paddedCount : ℕ) (resolve : UInt64 → Hash) :
    List Hash :=
  let range := level.leafRange coarse
  (range' range.1.toNat (range.2.toNat - range.1.toNat)).map fun leaf =>
    if leaf < paddedCount then resolve (UInt64.ofNat leaf) else alg.nullSentinel H

/-- The digest above a coarse group. -/
def foldGroup (level : MeshLevel) (coarse : UInt64) (paddedCount : ℕ)
    (resolve : UInt64 → Hash) : Except (Halt MerkleError) Hash :=
  let row := groupRow H alg level coarse paddedCount resolve
  foldRow H alg row.length row

/-! ### Verification -/

/-- The digest of a member of a group: delivered, filled in by the prover, or null. -/
def resolve (chunks : List ChunkData) (fillIn : NodeMap) (leaf : UInt64) : Hash :=
  let delivered : NodeMap :=
    Std.TreeMap.ofList (chunks.map fun c => (c.index, alg.hashLeaf H c.data))
  (delivered[leaf]? <|> fillIn[leaf]?).getD (alg.nullSentinel H)

/-- Fold every group, and note those whose digest is not the one the proof carries. -/
def foldGroups (level : MeshLevel) (paddedCount : ℕ) (resolve : UInt64 → Hash)
    (coarseHashes : List Hash) :
    ℕ → List UInt64 → Except (Halt MerkleError) (List Hash × List UInt64)
  | _, [] => .ok ([], [])
  | i, c :: rest => do
    let folded ← foldGroup H alg level c paddedCount resolve
    let claimed ← index coarseHashes i
    let (computed, suspect) ← foldGroups level paddedCount resolve coarseHashes (i + 1) rest
    .ok (folded :: computed, if constantTimeEq folded claimed then suspect else c :: suspect)

/-- Walk every coarse leaf to the root, and note those that do not reach it. -/
def suspectPaths (root : Hash) (proofNodes : NodeMap) (coarseRow : ℕ) :
    List (UInt64 × Hash) → List UInt64 → Except MerkleError (List UInt64)
  | [], suspect => .ok suspect
  | (c, folded) :: rest, suspect => do
    let node := leafNode coarseRow c
    let current ← walkToRoot H alg proofNodes node.toNat node c folded
    suspectPaths root proofNodes coarseRow rest
      (if ¬ constantTimeEq current root ∧ c ∉ suspect then suspect ++ [c] else suspect)

/-- Lead the folded coarse leaves to the root. The pruned construction compares the root only,
and does not look at the digests the proof carries for the coarse leaves. -/
def meshVerdict (root : Hash) (proofNodes : NodeMap) (coarseRow : ℕ)
    (leaves : List (UInt64 × Hash)) (suspect : List UInt64) :
    ProofConstruction → Except MerkleError MeshVerdict
  | .canonicalPruned => do
    let rebuilt ← rebuildRoot H alg proofNodes maxLevels (knownLeaves coarseRow leaves)
    let computedRoot ← okOr .companionTampered rebuilt[(0 : UInt64)]?
    .ok (if constantTimeEq computedRoot root then .verified else .suspect (leaves.map Prod.fst))
  | .naiveDedup => do
    let suspect ← suspectPaths H alg root proofNodes coarseRow leaves suspect
    .ok (if suspect.isEmpty then .verified else .suspect (sortDedup (· ≤ ·) suspect))

/-- Verify that `chunks` is the complete and unaltered subset that was requested, at coarse
granularity. -/
def verifySubsetMesh (root : Hash) (chunks : List ChunkData) (proof : MeshProof)
    (expectedGrid : ChunkGridParams) (trustedGridHash : Hash) (sel : Selection)
    (order : LeafOrder) (construction : ProofConstruction) (level : MeshLevel) :
    Except (Halt MerkleError) MeshVerdict := do
  let recomputedGridHash := computeGridHash H expectedGrid.dims expectedGrid.chunkShape
    expectedGrid.elemSize expectedGrid.layoutClass alg
  returning (reject (¬ constantTimeEq recomputedGridHash trustedGridHash) .gridHashMismatch)
  let paddedCount ← returning (checkedPaddedLeafCount expectedGrid)
  let coarseRow ← returning (level.coarseRowLen paddedCount)
  let expectedFine ← computeExpectedChunkIndices expectedGrid sel order
  returning (reject (chunks.length ≠ expectedFine.length) .companionTampered)
  returning (reject (∃ c ∈ chunks.zip expectedFine, c.1.index ≠ c.2) .companionTampered)
  let expectedCoarse := coarseCover expectedFine level
  returning (reject (proof.coarseIndices ≠ expectedCoarse) .selectionMismatch)
  returning (reject (proof.coarseHashes.length ≠ proof.coarseIndices.length) .companionTampered)
  let cert := meshCoverageCert H expectedCoarse level proof.gridParams.gridHash alg
  returning (reject (¬ constantTimeEq cert proof.coverageCert) .companionTampered)
  let (computed, suspect) ← foldGroups H alg level paddedCount
    (resolve H alg chunks proof.fillIn) proof.coarseHashes 0 expectedCoarse
  returning (meshVerdict H alg root proof.proofNodes coarseRow (expectedCoarse.zip computed)
    suspect construction)

end

/-! ### What a fold returns -/

section

variable {H : Hashers} {alg : HashAlg}

theorem pairRow_ok {row : List Hash} (h : row.length % 2 = 0) :
    pairRow H alg row = .ok (pairUp (alg.hashPair H) row) := by
  fun_induction pairRow H alg row with
  | case1 => rfl
  | case2 => simp at h
  | case3 left right row ih =>
    rw [length_cons, length_cons] at h
    rw [ih (by omega)]
    rfl

/-- A row as long as a power of two folds into the label above it. -/
theorem foldRow_ok {l fuel : ℕ} {row : List Hash} (hlen : row.length = 2 ^ l)
    (hfuel : l ≤ fuel) : foldRow H alg fuel row = .ok (foldUp (alg.hashPair H) l row) := by
  induction l generalizing fuel row with
  | zero =>
    obtain ⟨x, rfl⟩ := length_eq_one_iff.mp hlen
    cases fuel <;> rfl
  | succ l ih =>
    obtain ⟨fuel, rfl⟩ : ∃ k, fuel = k + 1 := ⟨fuel - 1, by omega⟩
    have hone := Nat.two_pow_pos l
    rw [foldRow, if_pos (by omega), pairRow_ok (by omega)]
    refine ih ?_ (by omega)
    rw [pairUp, length_map, length_rowPairs]
    omega

variable (l : MeshLevel) (leaf : UInt64)

theorem MeshLevel.level_lt : l.level.toNat < 64 :=
  lt_of_le_of_lt (UInt32.le_iff_toNat_le.mp l.le) (by decide)

theorem MeshLevel.toNat_coarseIndex :
    (l.coarseIndex leaf).toNat = leaf.toNat / 2 ^ l.level.toNat := by
  rw [MeshLevel.coarseIndex, UInt64.toNat_shiftRight, UInt32.toNat_toUInt64,
    mod_eq_of_lt l.level_lt, shiftRight_eq_div_pow]

theorem MeshLevel.toNat_leafRange (coarse : UInt64) :
    (l.leafRange coarse).1.toNat = coarse.toNat * 2 ^ l.level.toNat % 2 ^ 64 ∧
      (l.leafRange coarse).2.toNat = (coarse.toNat + 1) * 2 ^ l.level.toNat % 2 ^ 64 := by
  simp [MeshLevel.leafRange, mod_eq_of_lt l.level_lt, shiftLeft_eq]

/-- The group of a leaf starts at the multiple of the group size below it, and ends a group
size later, unless it is the last group of the index space. -/
theorem MeshLevel.leafRange_coarseIndex : (l.leafRange (l.coarseIndex leaf)).1.toNat =
        leaf.toNat / 2 ^ l.level.toNat * 2 ^ l.level.toNat ∧
      ((l.leafRange (l.coarseIndex leaf)).2.toNat = 0 ∨ (l.leafRange (l.coarseIndex leaf)).2.toNat =
          leaf.toNat / 2 ^ l.level.toNat * 2 ^ l.level.toNat + 2 ^ l.level.toNat) := by
  obtain ⟨hlo, hhi⟩ := l.toNat_leafRange (l.coarseIndex leaf)
  rw [l.toNat_coarseIndex] at hlo hhi
  have hle : leaf.toNat / 2 ^ l.level.toNat * 2 ^ l.level.toNat ≤ leaf.toNat := div_mul_le_self _ _
  have hlt := leaf.toNat_lt
  -- the end of a group is at most the end of the index space
  have hend : leaf.toNat / 2 ^ l.level.toNat + 1 ≤ 2 ^ (64 - l.level.toNat) := by
    refine succ_le_of_lt ((div_lt_iff_lt_mul (Nat.two_pow_pos _)).mpr ?_)
    rwa [← pow_add, Nat.sub_add_cancel l.level_lt.le]
  have hend' : (leaf.toNat / 2 ^ l.level.toNat + 1) * 2 ^ l.level.toNat ≤ 2 ^ 64 := by
    refine (mul_le_mul_right _ hend).trans_eq ?_
    rw [← pow_add, Nat.sub_add_cancel l.level_lt.le]
  refine ⟨by rw [hlo, mod_eq_of_lt (hle.trans_lt hlt)], ?_⟩
  rw [hhi]
  rcases hend'.eq_or_lt with heq | hlt'
  · exact .inl (by rw [heq, mod_self])
  · exact .inr (by rw [mod_eq_of_lt hlt', add_one_mul])

variable {l leaf} {paddedCount : ℕ} {resolve : UInt64 → Hash}

/-- A fold over the group of a leaf that returns has folded a full row, and the leaf has its
slot in that row. -/
theorem foldGroup_eq_ok (h : foldGroup H alg l (l.coarseIndex leaf) paddedCount resolve = .ok x) :
    (groupRow H alg l (l.coarseIndex leaf) paddedCount resolve).length = 2 ^ l.level.toNat ∧
      x = foldUp (alg.hashPair H) l.level.toNat
        (groupRow H alg l (l.coarseIndex leaf) paddedCount resolve) ∧
      (groupRow H alg l (l.coarseIndex leaf) paddedCount resolve)[
        leaf.toNat % 2 ^ l.level.toNat]? =
          some (if leaf.toNat < paddedCount then resolve leaf else alg.nullSentinel H) := by
  obtain ⟨hlo, hhi⟩ := l.leafRange_coarseIndex leaf
  rcases hhi with hzero | hhi
  · -- the end of the last group wraps to zero and the row is empty
    simp [foldGroup, groupRow, hzero, foldRow] at h
  · have hlen : (groupRow H alg l (l.coarseIndex leaf) paddedCount resolve).length =
        2 ^ l.level.toNat := by
      simp [groupRow, hlo, hhi]
    refine ⟨hlen, ?_, ?_⟩
    · rw [foldGroup, foldRow_ok hlen (by rw [hlen]; exact Nat.lt_two_pow_self.le)] at h
      exact (ok.inj h).symm
    · have hdiv : leaf.toNat / 2 ^ l.level.toNat * 2 ^ l.level.toNat +
          leaf.toNat % 2 ^ l.level.toNat = leaf.toNat := div_add_mod' _ _
      rw [groupRow, getElem?_map, getElem?_range' (by rw [hhi]; omega), hlo,
        one_mul, hdiv, Option.map_some, UInt64.ofNat_toNat]

end

/-! ### Accepting runs -/

section

variable {H : Hashers} {alg : HashAlg} {root : Hash} {chunks : List ChunkData}
  {proof : MeshProof} {expectedGrid : ChunkGridParams} {trustedGridHash : Hash}
  {sel : Selection} {order : LeafOrder} {construction : ProofConstruction} {level : MeshLevel}

variable (H alg) in
/-- The folded coarse leaves of a delivery. -/
def foldedLeaves (chunks : List ChunkData) (fillIn : NodeMap) (paddedCount : ℕ)
    (level : MeshLevel) : List (UInt64 × Hash) :=
  (coarseCover (chunks.map ChunkData.index) level).map fun c =>
    (c, foldUp (alg.hashPair H) level.level.toNat
      (groupRow H alg level c paddedCount (resolve H alg chunks fillIn)))

theorem foldGroups_eq_ok {paddedCount i : ℕ} {resolve : UInt64 → Hash}
    {coarseHashes computed : List Hash} {cs : List UInt64}
    (h : foldGroups H alg level paddedCount resolve coarseHashes i cs = .ok (computed, suspect)) :
    Forall₂ (fun c x => foldGroup H alg level c paddedCount resolve = .ok x) cs
      computed := by
  induction cs generalizing i computed suspect with
  | nil =>
    obtain ⟨rfl, -⟩ := Prod.mk.inj (ok.inj h)
    exact .nil
  | cons c cs ih =>
    simp only [foldGroups, bind_ok_iff] at h
    obtain ⟨folded, hfolded, _, -, rest, hrest, h⟩ := h
    obtain ⟨rfl, -⟩ := Prod.mk.inj (ok.inj h)
    exact .cons hfolded (ih hrest)

section

variable {proofNodes : NodeMap} {coarseRow : ℕ} {leaves : List (UInt64 × Hash)}

/-- Nothing is suspect in the end only if nothing was before and every walk reaches the root. -/
theorem checkPaths_of_suspectPaths
    (h : suspectPaths H alg root proofNodes coarseRow leaves suspect = .ok []) :
    suspect = [] ∧ checkPaths H alg root proofNodes coarseRow leaves = .ok true := by
  induction leaves generalizing suspect with
  | nil => exact ⟨ok.inj h, rfl⟩
  | cons first rest ih =>
    obtain ⟨current, hwalk, h⟩ := bind_ok_iff.mp h
    obtain ⟨hempty, hrest⟩ := ih h
    split_ifs at hempty with hbad
    · exact absurd hempty (by simp)
    · subst hempty
      obtain rfl : current = root := by simpa using hbad
      simp [checkPaths, hwalk, reject, hrest]

/-- A verified mesh is an accepted proof for the coarse row. -/
theorem checkProof_of_meshVerdict
    (h : meshVerdict H alg root proofNodes coarseRow leaves suspect construction = .ok .verified) :
    checkProof H alg root proofNodes coarseRow leaves construction = .ok true := by
  cases construction with
  | canonicalPruned =>
    simp only [meshVerdict, bind_ok_iff, okOr_eq_ok, ok.injEq, ite_eq_left_iff,
      reduceCtorEq, imp_false, not_not, constantTimeEq_iff] at h
    obtain ⟨rebuilt, hrebuilt, _, hroot, rfl⟩ := h
    unfold knownLeaves at hrebuilt
    simp [checkProof, checkRebuilt, hrebuilt, hroot, reject, okOr]
  | naiveDedup =>
    simp only [meshVerdict, bind_ok_iff, ok.injEq, ite_eq_left_iff, reduceCtorEq,
      imp_false, not_not, List.isEmpty_iff] at h
    obtain ⟨_, hpaths, rfl⟩ := h
    exact (checkPaths_of_suspectPaths hpaths).2

end

/-- What an accepting run has checked. -/
theorem of_verifySubsetMesh
    (h : verifySubsetMesh H alg root chunks proof expectedGrid trustedGridHash sel order
      construction level = .ok .verified) :
    alg.hashRaw H expectedGrid.preimage = trustedGridHash ∧
      computeExpectedChunkIndices expectedGrid sel order = .ok (chunks.map ChunkData.index) ∧
      ∃ paddedCount, checkedPaddedLeafCount expectedGrid = .ok paddedCount ∧
        level.level.toNat ≤ trailingZeros paddedCount ∧
        (∀ c ∈ chunks, ∃ x, foldGroup H alg level (level.coarseIndex c.index) paddedCount
          (resolve H alg chunks proof.fillIn) = .ok x) ∧
        checkProof H alg root proof.proofNodes (paddedCount >>> level.level.toNat)
          (foldedLeaves H alg chunks proof.fillIn paddedCount level) construction = .ok true := by
  simp only [verifySubsetMesh, MeshLevel.coarseRowLen, bind_ok_iff, returning_eq_ok, reject_eq_ok,
    exists_const, not_not, constantTimeEq_iff, not_exists, not_and, ok.injEq] at h
  obtain ⟨hgrid, paddedCount, hpadded, _, ⟨hlevel, rfl⟩, expectedFine, hexpected, hlen,
    hindices, -, -, -, ⟨computed, suspect⟩, hfold, hverdict⟩ := h
  obtain rfl := eq_map_index_of_zip hlen hindices
  have hall := foldGroups_eq_ok hfold
  have hfolded : (coarseCover (chunks.map ChunkData.index) level).zip computed =
      foldedLeaves H alg chunks proof.fillIn paddedCount level := by
    have hmap : computed = (coarseCover (chunks.map ChunkData.index) level).map fun c =>
        foldUp (alg.hashPair H) level.level.toNat
          (groupRow H alg level c paddedCount (resolve H alg chunks proof.fillIn)) := by
      refine ext_getElem (by rw [← hall.length_eq, length_map]) fun i hi hi' => ?_
      rw [length_map] at hi'
      have hc := getElem_mem hi'
      obtain ⟨leaf, -, hleaf⟩ := mem_map.mp (mem_sortDedup.mp hc)
      have hget := hall.get hi' hi
      simp only [get_eq_getElem, ← hleaf] at hget
      rw [getElem_map, ← hleaf]
      exact (foldGroup_eq_ok hget).2.1
    rw [hmap, foldedLeaves, ← map_prod_left_eq_zip]
  refine ⟨hgrid, hexpected, paddedCount, hpadded, not_lt.mp hlevel, fun c hc => ?_, ?_⟩
  · have hmem : level.coarseIndex c.index ∈ coarseCover (chunks.map ChunkData.index) level :=
      mem_sortDedup.mpr (mem_map_of_mem (mem_map_of_mem hc))
    obtain ⟨i, hi, heq⟩ := getElem_of_mem hmem
    have hget := hall.get hi (hall.length_eq ▸ hi)
    rw [get_eq_getElem, heq] at hget
    exact ⟨_, hget⟩
  · exact hfolded ▸ checkProof_of_meshVerdict hverdict

end

/-! ### Soundness -/

section

variable {H : Hashers} {alg : HashAlg} {slots : List (Option Bytes)}
  {committed expectedGrid : ChunkGridParams} {trustedGridHash : Hash} {chunks : List ChunkData}
  {proof : MeshProof} {sel : Selection} {order : LeafOrder} {construction : ProofConstruction}
  {level : MeshLevel}

variable (H alg) in
/-- The pairs hashed to fold the covered groups and to lead them to the root. -/
def meshPairs (chunks : List ChunkData) (proof : MeshProof) (paddedCount : ℕ)
    (construction : ProofConstruction) (level : MeshLevel) : List (Hash × Hash) :=
  ((coarseCover (chunks.map ChunkData.index) level).flatMap fun c =>
    foldPairs (alg.hashPair H) level.level.toNat
      (groupRow H alg level c paddedCount (resolve H alg chunks proof.fillIn))) ++
  proofPairs H alg proof.proofNodes (paddedCount >>> level.level.toNat)
    (foldedLeaves H alg chunks proof.fillIn paddedCount level) construction

variable (H alg) in
/-- What an accepting run of `verifySubsetMesh` hashes, besides the certificate: the grid
parameters, the delivered chunks, and the pairs in the groups and above them. -/
def meshPreimages (chunks : List ChunkData) (proof : MeshProof) (expectedGrid : ChunkGridParams)
    (construction : ProofConstruction) (level : MeshLevel) : List Bytes :=
  expectedGrid.preimage :: (chunks.map fun c => contentPreimage c.data) ++
    match checkedPaddedLeafCount expectedGrid with
    | .error _ => []
    | .ok paddedCount =>
      (meshPairs H alg chunks proof paddedCount construction level).map fun p =>
        pairPreimage p.1 p.2

/-- A delivered chunk is resolved to its own digest, whatever the prover fills in. -/
theorem resolve_delivered (hnodup : (chunks.map ChunkData.index).Nodup) (fillIn : NodeMap)
    (hc : c ∈ chunks) :
    resolve H alg chunks fillIn c.index = alg.hashLeaf H c.data := by
  have hget : (Std.TreeMap.ofList (chunks.map fun c => (c.index, alg.hashLeaf H c.data)) :
      NodeMap)[c.index]? = some (alg.hashLeaf H c.data) := by
    refine Std.TreeMap.getElem?_ofList_of_mem (k := c.index) Std.ReflCmp.compare_self ?_
      (mem_map.mpr ⟨c, hc, rfl⟩)
    rw [pairwise_map]
    exact (pairwise_map.mp hnodup).imp fun hne heq => hne (Std.compare_eq_iff_eq.mp heq)
  rw [resolve, hget]
  rfl

/-- The digest a covered group holds for a delivered chunk leads to the root, and from the
position the chunk's index names if that is in the leaf row at all. -/
theorem climbsTo_of_folded {S : Set (Hash × Hash)} {root : Hash} {paddedCount : ℕ}
    (hpow : paddedCount = 2 ^ a) (ha : a ≤ 39)
    (hlevel : level.level.toNat ≤ trailingZeros paddedCount)
    (hcheck : checkProof H alg root proof.proofNodes (paddedCount >>> level.level.toNat)
      (foldedLeaves H alg chunks proof.fillIn paddedCount level) construction = .ok true)
    (hS : ∀ p ∈ meshPairs H alg chunks proof paddedCount construction level, p ∈ S)
    (hc : c ∈ chunks)
    (hfold : foldGroup H alg level (level.coarseIndex c.index) paddedCount (resolve H alg chunks
      proof.fillIn) = .ok x) :
    ∃ m, ClimbsTo (alg.hashPair H) S root m (if c.index.toNat < paddedCount then
          resolve H alg chunks proof.fillIn c.index else alg.nullSentinel H) ∧
      (paddedCount ≤ m → m < 2 * paddedCount → m = paddedCount + c.index.toNat) := by
  obtain ⟨hlen, rfl, hslot⟩ := foldGroup_eq_ok hfold
  set l := level.level.toNat with hl
  have hla : l ≤ a := by rwa [hpow, trailingZeros_two_pow (by omega)] at hlevel
  have hrow : paddedCount >>> l = 2 ^ (a - l) := by
    rw [hpow, shiftRight_eq_div_pow, Nat.pow_div hla (by decide)]
  have hsplit : 2 ^ l * 2 ^ (a - l) = paddedCount := by
    rw [hpow, ← pow_add, Nat.add_sub_cancel' hla]
  have hcover : level.coarseIndex c.index ∈ coarseCover (chunks.map ChunkData.index) level :=
    mem_sortDedup.mpr (mem_map_of_mem (mem_map_of_mem hc))
  have hnodup : ((foldedLeaves H alg chunks proof.fillIn paddedCount level).map
      Prod.fst).Nodup := by
    rw [foldedLeaves, map_map]
    exact (map_id _).symm ▸ nodup_sortDedup _
  -- the coarse leaf leads to the root, and the fold continues its path to the leaf row
  obtain ⟨m, hclimb, hposition⟩ := climbsTo_of_checkProof hrow
    (hrow ▸ Nat.pow_le_pow_right two_pos (by omega)) hcheck
    (fun p hp => hS p (mem_append_right _ hp)) hnodup (mem_map.mpr ⟨_, hcover, rfl⟩)
  refine ⟨_, hclimb.of_foldUp hlen (fun p hp => hS p (mem_append_left _
    (mem_flatMap.mpr ⟨_, hcover, hp⟩))) hslot, fun hlo hhi => ?_⟩
  have hmod := mod_lt c.index.toNat (Nat.two_pow_pos l)
  have hdiv : (2 ^ l * m + c.index.toNat % 2 ^ l) / 2 ^ l = m := by
    rw [mul_add_div (Nat.two_pow_pos l), div_eq_of_lt hmod, add_zero]
  have hlo' : paddedCount >>> l ≤ m := by
    rw [shiftRight_eq_div_pow]
    exact (Nat.div_le_div_right hlo).trans_eq hdiv
  have hhi' : m < 2 * paddedCount >>> l := by
    rw [hrow, ← hdiv]
    refine Nat.div_lt_of_lt_mul (hhi.trans_eq ?_)
    rw [← hsplit]
    ring
  rw [hposition hlo' hhi', level.toNat_coarseIndex, hrow, mul_add, hsplit, add_assoc, div_add_mod]

/-- A verified mesh binds every delivered chunk to the committed leaf at its index. -/
theorem leafHash_of_folded {occurring : List Bytes} (hcf : CollisionFree (alg.hashRaw H) occurring)
    (hslots : ∀ x ∈ contentPreimages H alg slots, x ∈ occurring)
    (hpairs : ∀ p ∈ meshPairs H alg chunks proof (contentTree H alg slots).paddedCount construction
      level, p ∈ hashedPairs occurring)
    (hdata : ∀ c ∈ chunks, contentPreimage c.data ∈ occurring)
    (hnodup : (chunks.map ChunkData.index).Nodup)
    (hpow : (contentTree H alg slots).paddedCount = 2 ^ a) (ha : a ≤ 39)
    (hlevel : level.level.toNat ≤ trailingZeros (contentTree H alg slots).paddedCount)
    (hcheck : checkProof H alg (contentTree H alg slots).root proof.proofNodes ((contentTree H alg
      slots).paddedCount >>> level.level.toNat) (foldedLeaves H alg chunks proof.fillIn (contentTree
      H alg slots).paddedCount level) construction = .ok true)
    (hc : c ∈ chunks)
    (hfold : foldGroup H alg level (level.coarseIndex c.index) (contentTree H alg slots).paddedCount
      (resolve H alg chunks proof.fillIn) = .ok x) :
    (contentTree H alg slots).leafHash c.index.toNat = some (alg.hashLeaf H c.data) := by
  obtain ⟨m, hclimb, hposition⟩ := climbsTo_of_folded hpow ha hlevel hcheck hpairs hc hfold
  split_ifs at hclimb with hidx
  · rw [resolve_delivered hnodup proof.fillIn hc] at hclimb
    obtain ⟨hlo, hhi, hslot⟩ := slot_of_climbsTo hcf hslots (hdata c hc) hclimb
    rwa [hposition hlo hhi, Nat.add_sub_cancel_left] at hslot
  · -- an index past the leaf row is resolved to null, but no path has a leaf there
    have hnull : nullPreimage ∈ contentPreimages H alg slots := mem_append_right _ mem_cons_self
    obtain ⟨hlo, hhi, -⟩ := rowPreimage_of_climbsTo hcf hslots (hslots _ hnull)
      nullPreimage_ne_pairPreimage hclimb
    exact absurd (hposition hlo hhi) (by omega)

/-- The siblings of the committed tree make a native proof for a delivery of its leaves. -/
theorem exists_native_of_leafHash (hpow : (contentTree H alg slots).paddedCount = 2 ^ a)
    (ha : a ≤ 39) (htrusted : alg.hashRaw H expectedGrid.preimage = trustedGridHash)
    (hexpected : computeExpectedChunkIndices expectedGrid sel order = .ok (chunks.map
      ChunkData.index))
    (hpadded : checkedPaddedLeafCount expectedGrid = .ok (contentTree H alg slots).paddedCount)
    (hleaf : ∀ c ∈ chunks, (contentTree H alg slots).leafHash c.index.toNat = some (alg.hashLeaf H
      c.data))
    (hne : construction = .naiveDedup ∨ chunks ≠ []) :
    ∃ native, verifySubsetWith H alg (contentTree H alg slots).root chunks native expectedGrid
      trustedGridHash sel order construction = .ok true := by
  have hleaves : LabelledLeaves (contentTree H alg slots).nodes a
      (deliveredLeaves H alg chunks) := by
    intro leaf hmem
    obtain ⟨c, hc, rfl⟩ := mem_map.mp hmem
    obtain ⟨hlt, hlabel⟩ := leafHash_eq_some.mp (hleaf c hc)
    rw [hpow] at hlabel
    refine ⟨lt_of_lt_of_le hlt ?_, hlabel.symm⟩
    rw [← hpow, contentTree, fromLeafHashes_leafCount, fromLeafHashes_paddedCount]
    exact le_nextPowerOfTwo _
  have hnodup : ((deliveredLeaves H alg chunks).map Prod.fst).Nodup := by
    rw [deliveredLeaves, map_map]
    exact nodup_of_computeExpectedChunkIndices hexpected
  have hhashed : IsHashed (alg.hashPair H) a (label (contentTree H alg slots).nodes) := by
    refine fromLeafHashes_isHashed ?_
    rw [← hpow, contentTree, fromLeafHashes_paddedCount]
  obtain ⟨proofNodes, -, hnative⟩ :=
    checkProof_collectNodes construction hhashed hpow ha hnodup hleaves
  refine ⟨⟨chunks.map ChunkData.index, chunks.map fun c => alg.hashLeaf H c.data, proofNodes,
    expectedGrid, coverageCert H ((chunks.map ChunkData.index).insertionSort (· ≤ ·))
      expectedGrid.gridHash alg⟩, verifySubsetWith_eq_ok.mpr ?_⟩
  refine ⟨htrusted, rfl, rfl, hexpected, rfl, _, hpadded, hpow ▸ hnative.mpr (hne.imp_right ?_)⟩
  exact fun h hempty => h (map_eq_nil_iff.mp hempty)

/-- **Mesh soundness.** Against the root of a committed content tree and the hash of its grid,
whatever the level, the proof and the chunks are, a verified delivery is for the committed
grid, covers exactly the expected indices, and holds at each of them the committed leaf. So a
native proof for it exists. -/
theorem verifySubsetMesh_sound
    (hsize : checkedPaddedLeafCount committed = .ok (contentTree H alg slots).paddedCount)
    (hgrid : computeGridHash H committed.dims committed.chunkShape committed.elemSize
      committed.layoutClass alg = trustedGridHash)
    (hcf : CollisionFree (alg.hashRaw H)
      (contentPreimages H alg slots ++ committed.preimage ::
        meshPreimages H alg chunks proof expectedGrid construction level))
    (hok : verifySubsetMesh H alg (contentTree H alg slots).root chunks proof expectedGrid
      trustedGridHash sel order construction level = .ok .verified) :
    (expectedGrid.dims = committed.dims ∧ expectedGrid.chunkShape = committed.chunkShape ∧
      expectedGrid.elemSize = committed.elemSize ∧
      expectedGrid.layoutClass = committed.layoutClass) ∧
    computeExpectedChunkIndices expectedGrid sel order = .ok (chunks.map ChunkData.index) ∧
    (∀ c ∈ chunks, (contentTree H alg slots).leafHash c.index.toNat =
      some (alg.hashLeaf H c.data)) ∧
    ∃ native, verifySubsetWith H alg (contentTree H alg slots).root chunks native expectedGrid
      trustedGridHash sel order construction = .ok true := by
  obtain ⟨htrusted, hexpected, paddedCount, hpadded, hlevel, hfolds, hcheck⟩ :=
    of_verifySubsetMesh hok
  have hvalid := validGrid_of_checked hpadded
  have hpreimage : expectedGrid.preimage = committed.preimage :=
    hcf _ (by simp [meshPreimages]) _ (by simp) (htrusted.trans hgrid.symm)
  obtain ⟨hsame, rfl⟩ := grid_of_preimage_eq hpadded hsize hpreimage
  obtain ⟨a, ha, hpow⟩ := hvalid.height
  have hmesh (x : Bytes)
      (hx : x ∈ meshPreimages H alg chunks proof expectedGrid construction level) :
      x ∈ contentPreimages H alg slots ++ committed.preimage ::
        meshPreimages H alg chunks proof expectedGrid construction level :=
    mem_append_right _ (mem_cons_of_mem _ hx)
  have hleaf : ∀ c ∈ chunks, (contentTree H alg slots).leafHash c.index.toNat =
      some (alg.hashLeaf H c.data) := by
    intro c hc
    obtain ⟨x, hfold⟩ := hfolds c hc
    refine leafHash_of_folded hcf (fun x hx => mem_append_left _ hx)
      (fun p hp => hmesh _ ?_) (fun c hc => hmesh _ ?_)
      (nodup_of_computeExpectedChunkIndices hexpected) hpow ha hlevel hcheck hc hfold
    · rw [meshPreimages, hpadded]
      exact mem_append_right _ (mem_map.mpr ⟨p, hp, rfl⟩)
    · exact mem_append_left _ (mem_cons_of_mem _ (mem_map.mpr ⟨c, hc, rfl⟩))
  refine ⟨hsame, hexpected, hleaf,
    exists_native_of_leafHash hpow ha htrusted hexpected hpadded hleaf ?_⟩
  cases construction with
  | naiveDedup => exact .inl rfl
  | canonicalPruned =>
    refine .inr fun hempty => ?_
    subst hempty
    cases hcheck

/-- The mesh proof for the second chunk of two, one level up: the coarse leaf is the root, and
the prover fills in the first chunk. -/
def secondChunkMesh : MeshProof where
  coarseIndices := [0]
  coarseHashes := [(contentTree sha256Only .sha256 twoSlots).root]
  proofNodes := ∅
  fillIn := Std.TreeMap.ofList [((0 : UInt64), HashAlg.sha256.hashLeaf sha256Only [0x61])]
  gridParams := twoChunks
  level := ⟨1, by decide⟩
  coverageCert := meshCoverageCert sha256Only [0] ⟨1, by decide⟩ twoChunks.gridHash .sha256

theorem verifySubsetMesh_sound_secondChunk :
    (twoChunks.dims = [2] ∧ twoChunks.chunkShape = [1] ∧ twoChunks.elemSize = 1 ∧
      twoChunks.layoutClass = .chunked) ∧
    computeExpectedChunkIndices twoChunks (.points [[1]]) .rowMajor = .ok [1] ∧
    (∀ c ∈ [ChunkData.mk 1 [0x62]], (contentTree sha256Only .sha256 twoSlots).leafHash
      c.index.toNat = some (HashAlg.sha256.hashLeaf sha256Only c.data)) ∧
    ∃ native, verifySubsetWith sha256Only .sha256 (contentTree sha256Only .sha256 twoSlots).root
      [⟨1, [0x62]⟩] native twoChunks twoChunks.gridHash (.points [[1]]) .rowMajor
      .canonicalPruned = .ok true :=
  @verifySubsetMesh_sound sha256Only .sha256 twoSlots twoChunks twoChunks twoChunks.gridHash
    [⟨1, [0x62]⟩] secondChunkMesh (.points [[1]]) .rowMajor .canonicalPruned ⟨1, by decide⟩
    (by decide +kernel) rfl (by decide +kernel) (by decide +kernel)

end

end ClawHdf5.Subset
