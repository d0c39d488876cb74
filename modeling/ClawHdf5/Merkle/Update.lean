import ClawHdf5.Math.Fallible
import ClawHdf5.Merkle.Tree

/-!
# Updating a Merkle tree in place

Replacing one leaf rehashes the nodes on the path from it to the root and leaves the others as they
are. The result is the tree that would have been built over the new leaf row, so that the proofs
taken from it lead to its root.
-/

namespace ClawHdf5.Merkle

open Fallible LevelOrder MachineInt List MerkleTree Except

/-- The deepest tree that is built. -/
def maxDepth : ℕ := 40

/-- The number of levels of a tree. -/
def computeDepth (paddedCount : ℕ) : ℕ := if paddedCount ≤ 1 then 1 else Nat.log2 paddedCount + 1

/-- An array of `n` digests. -/
abbrev NodeArray (n : ℕ) := {nodes : List Hash // nodes.length = n}

namespace NodeArray

variable {n : ℕ}

/-- Replace one digest. -/
def set (nodes : NodeArray n) (i : ℕ) (x : Hash) : NodeArray n :=
  ⟨nodes.val.set i x, by rw [List.length_set, nodes.property]⟩

/-- Replace one digest, where the array has it. -/
def setChecked (e : MerkleError) (nodes : NodeArray n) (i : ℕ) (x : Hash) :
    Except MerkleError (NodeArray n) := do
  reject (n ≤ i) e
  .ok (nodes.set i x)

end NodeArray

namespace MerkleTree

/-- Build the tree over pre-computed leaf digests, unless it is too deep. -/
def build (H : Hashers) (leaves : List Hash) (alg : HashAlg) : Except MerkleError MerkleTree := do
  let depth := computeDepth (nextPowerOfTwo leaves.length)
  reject (leaves.length ≠ 0 ∧ depth > maxDepth) (.treeTooDeep depth)
  .ok (fromLeafHashes H leaves alg)

/-- Rehash the ancestors of a node from its parent to the root. The walk at least halves the index,
so as many steps as the index suffice. -/
def rehashPath (pair : Hash → Hash → Hash) (e : MerkleError) {n : ℕ} :
    ℕ → ℕ → NodeArray n → Except MerkleError (NodeArray n)
  | 0, _, nodes => .ok nodes
  | fuel + 1, nodeIdx, nodes =>
    if nodeIdx > 0 then do
      let parent := (nodeIdx - 1) / 2
      let l ← okOr e nodes.val[2 * parent + 1]?
      let r ← okOr e nodes.val[2 * parent + 2]?
      let nodes ← nodes.setChecked e parent (pair l r)
      rehashPath pair e fuel parent nodes
    else .ok nodes

/-- Replace the leaf at `leafIdx`, which may be one of the padding. -/
def updateLeaf (H : Hashers) (t : MerkleTree) (leafIdx : ℕ) (newHash : Hash) :
    Except MerkleError MerkleTree := do
  let oob := MerkleError.hyperslabOutOfBounds leafIdx
  reject (leafIdx ≥ t.paddedCount) oob
  let nodeIdx := t.paddedCount - 1 + leafIdx
  let nodes ← NodeArray.setChecked oob ⟨t.nodes, t.length_nodes⟩ nodeIdx newHash
  let nodes ← rehashPath (t.alg.hashPair H) oob nodeIdx nodeIdx nodes
  .ok { t with nodes := nodes.val, length_nodes := nodes.property }

/-- A sequence of updates, up to the first that fails. -/
def updateLeaves (H : Hashers) (t : MerkleTree) : List (ℕ × Hash) → Except MerkleError MerkleTree
  | [] => .ok t
  | (leafIdx, newHash) :: updates => do
    let t ← t.updateLeaf H leafIdx newHash
    t.updateLeaves H updates

/-- The leaf row, padding included. -/
def leafRow (t : MerkleTree) : List Hash := t.nodes.drop (t.paddedCount - 1)

/-- Every inner node is the hash of its children. -/
def Hashed (H : Hashers) (t : MerkleTree) : Prop :=
  ∀ a, t.paddedCount = 2 ^ a → IsHashed (t.alg.hashPair H) a (label t.nodes)

end MerkleTree

section

variable {H : Hashers} {t t' : MerkleTree} {alg : HashAlg} {leaves : List Hash}

theorem build_eq_ok (h : build H leaves alg = .ok t) : t = fromLeafHashes H leaves alg := by
  obtain ⟨-, -, h⟩ := bind_ok_iff.mp h
  exact (ok.inj h).symm

theorem fromLeafHashes_hashed (H : Hashers) (leaves : List Hash) (alg : HashAlg) :
    (fromLeafHashes H leaves alg).Hashed H := by
  intro a ha
  rw [fromLeafHashes_paddedCount] at ha
  rw [fromLeafHashes_alg]
  exact fromLeafHashes_isHashed ha

namespace MerkleTree

theorem length_leafRow (t : MerkleTree) : t.leafRow.length = t.paddedCount := by
  have hlen := t.length_nodes
  rw [leafRow, length_drop]
  omega

theorem getElem?_leafRow {i : ℕ} (hi : i < t.paddedCount) :
    t.leafRow[i]? = some (label t.nodes (t.paddedCount + i)) := by
  have hlen := t.length_nodes
  rw [leafRow, getElem?_drop, label, getD_eq_getElem?_getD,
    show t.paddedCount + i - 1 = t.paddedCount - 1 + i by omega,
    getElem?_eq_getElem (by omega), Option.getD_some]

theorem leafRow_eq_of_label {row : List Hash} (hlen : row.length = t.paddedCount)
    (h : ∀ i < t.paddedCount, row[i]? = some (label t.nodes (t.paddedCount + i))) :
    t.leafRow = row := by
  apply ext_getElem?
  intro i
  rcases lt_or_ge i t.paddedCount with hi | hi
  · rw [getElem?_leafRow hi, h i hi]
  · rw [getElem?_eq_none (by rwa [length_leafRow]), getElem?_eq_none (by rwa [hlen])]

end MerkleTree

/-! ### One update -/

/-- A walk up from position `m` ends. It keeps the leaf row, and leaves a hashed array of a tree
that was hashed beside the path. -/
theorem rehashPath_ok {pair : Hash → Hash → Hash} {e : MerkleError} {n a : ℕ}
    (hn : n = 2 ^ (a + 1) - 1) {fuel m : ℕ} (hm : 1 ≤ m) (hmn : m < 2 ^ (a + 1))
    (hfuel : m - 1 ≤ fuel) {nodes : NodeArray n}
    (hbeside : HashedBeside pair a m (label nodes.val)) :
    ∃ result, rehashPath pair e fuel (m - 1) nodes = .ok result ∧
      IsHashed pair a (label result.val) ∧
      ∀ j, 2 ^ a ≤ j → label result.val j = label nodes.val j := by
  induction fuel generalizing m nodes with
  | zero =>
    obtain rfl : m = 1 := by omega
    exact ⟨nodes, rfl, hbeside.isHashed, fun _ _ => rfl⟩
  | succ fuel ih =>
    rw [rehashPath]
    by_cases hroot : m = 1
    · subst hroot
      exact ⟨nodes, if_neg (by omega), hbeside.isHashed, fun _ _ => rfl⟩
    · have hlen := nodes.property
      -- both children of the parent are cells of the array
      have hcell : ∀ k, k < n → okOr e nodes.val[k]? = .ok (label nodes.val (k + 1)) := by
        intro k hk
        rw [label, Nat.add_sub_cancel, getD_eq_getElem?_getD, getElem?_eq_getElem (by omega)]
        rfl
      rw [if_pos (by omega), show (m - 1 - 1) / 2 = m / 2 - 1 by omega]
      dsimp only
      rw [hcell _ (by omega), ok_bind, hcell _ (by omega), ok_bind, NodeArray.setChecked,
        reject_bind (by omega),
        show 2 * (m / 2 - 1) + 2 = 2 * (m / 2) by omega]
      -- the parent's cell now holds the hash of its children
      have hset : ∀ x j, 1 ≤ j → label (nodes.set (m / 2 - 1) x).val j =
          if j = m / 2 then x else label nodes.val j :=
        fun x j hj => label_set (by omega) (by omega) x hj
      obtain ⟨result, hok, hhashed, hleaves⟩ := ih (by omega) (by omega) (by omega)
        (hbeside.step (by omega) (by rw [hset _ _ (by omega), if_pos rfl])
          fun j hj hne => by rw [hset _ _ hj, if_neg hne])
      refine ⟨result, hok, hhashed, fun j hj => ?_⟩
      rw [hleaves j hj, hset _ _ (by omega), if_neg (by omega)]

/-- A leaf of the padded row can be replaced. The tree stays hashed, keeps its shape, and its row is
the old one with that leaf replaced. -/
theorem updateLeaf_ok (ht : t.Hashed H) {leafIdx : ℕ} (hidx : leafIdx < t.paddedCount)
    (newHash : Hash) :
    ∃ t', t.updateLeaf H leafIdx newHash = .ok t' ∧ t'.Hashed H ∧ t'.alg = t.alg ∧
      t'.leafCount = t.leafCount ∧ t'.paddedCount = t.paddedCount ∧
      t'.leafRow = t.leafRow.set leafIdx newHash := by
  obtain ⟨a, ha⟩ := t.paddedCount_pow
  have hlen := t.length_nodes
  have hposition : t.paddedCount - 1 + leafIdx = 2 ^ a + leafIdx - 1 := by omega
  have hset : ∀ j, 1 ≤ j → label (t.nodes.set (2 ^ a + leafIdx - 1) newHash) j =
      if j = 2 ^ a + leafIdx then newHash else label t.nodes j :=
    fun j hj => label_set (by omega) (by omega) newHash hj
  have hbeside : HashedBeside (t.alg.hashPair H) a (2 ^ a + leafIdx)
      (label (NodeArray.set ⟨t.nodes, t.length_nodes⟩ (2 ^ a + leafIdx - 1) newHash).val) := by
    apply (ht a ha).hashedBeside le_self_add
    intro j hj hne
    exact (hset j hj).trans (if_neg hne)
  obtain ⟨result, hok, hhashed, hleaves⟩ := rehashPath_ok
    (e := .hyperslabOutOfBounds leafIdx) (by omega) (by omega) (by omega) le_rfl hbeside
  refine ⟨{ t with nodes := result.val, length_nodes := result.property }, ?_, ?_, rfl, rfl, rfl,
    ?_⟩
  · rw [updateLeaf]
    dsimp only
    rw [reject_bind (by omega), NodeArray.setChecked, reject_bind (by omega),
      ok_bind, hposition, hok, ok_bind]
  · intro b hb
    obtain rfl := Nat.pow_right_injective le_rfl (ha.symm.trans hb)
    exact hhashed
  · -- the walk starts above the leaf row and leaves it alone
    refine leafRow_eq_of_label (by rw [length_set, length_leafRow]) ?_
    intro i hi
    have hlabel : label result.val (t.paddedCount + i) = if t.paddedCount + i = 2 ^ a + leafIdx
        then newHash else label t.nodes (t.paddedCount + i) :=
      (hleaves _ (by omega)).trans (hset _ (by omega))
    have hold : t.leafRow[i]? = _ := getElem?_leafRow hi
    rw [hlabel, getElem?_set, length_leafRow, hold]
    by_cases hsame : leafIdx = i
    · rw [if_pos hsame, if_pos (by omega), if_pos (by omega)]
    · rw [if_neg hsame, if_neg (by omega)]

theorem lt_of_updateLeaf {leafIdx : ℕ} {newHash : Hash}
    (h : t.updateLeaf H leafIdx newHash = .ok t') : leafIdx < t.paddedCount := by
  obtain ⟨_, hreject, -⟩ := bind_ok_iff.mp h
  exact lt_of_not_ge (reject_eq_ok.mp hreject)

/-! ### Sequences of updates -/

/-- Updates of leaves of the padded row succeed, and replace these leaves one after another in a
tree that stays hashed and keeps its shape. -/
theorem updateLeaves_ok (ht : t.Hashed H) {updates : List (ℕ × Hash)}
    (hidx : ∀ u ∈ updates, u.1 < t.paddedCount) :
    ∃ t', t.updateLeaves H updates = .ok t' ∧ t'.Hashed H ∧ t'.alg = t.alg ∧
      t'.leafCount = t.leafCount ∧ t'.paddedCount = t.paddedCount ∧
      t'.leafRow = updates.foldl (fun row u => row.set u.1 u.2) t.leafRow := by
  induction updates generalizing t with
  | nil => exact ⟨t, rfl, ht, rfl, rfl, rfl, rfl⟩
  | cons u updates ih =>
    obtain ⟨hu, hrest⟩ := forall_mem_cons.mp hidx
    obtain ⟨t₁, hok, hhashed, halg, hcount, hpadded, hrow⟩ := updateLeaf_ok ht hu u.2
    obtain ⟨t₂, hok', hhashed', halg', hcount', hpadded', hrow'⟩ := ih hhashed (by rwa [hpadded])
    refine ⟨t₂, ?_, hhashed', halg'.trans halg, hcount'.trans hcount, hpadded'.trans hpadded, ?_⟩
    · rw [updateLeaves, hok, ok_bind, hok']
    · rw [hrow', hrow, foldl_cons]

/-- A sequence of updates that succeeded addressed leaves of the padded row only. -/
theorem lt_of_updateLeaves (ht : t.Hashed H) {updates : List (ℕ × Hash)}
    (h : t.updateLeaves H updates = .ok t') : ∀ u ∈ updates, u.1 < t.paddedCount := by
  induction updates generalizing t with
  | nil => exact fun u hu => absurd hu not_mem_nil
  | cons u updates ih =>
    obtain ⟨t₁, hfirst, hrest⟩ := bind_ok_iff.mp h
    have hu := lt_of_updateLeaf hfirst
    obtain ⟨t₁', hok, hhashed, -, -, hpadded, -⟩ := updateLeaf_ok ht hu u.2
    obtain rfl := ok.inj (hfirst.symm.trans hok)
    refine forall_mem_cons.mpr ⟨hu, ?_⟩
    rw [← hpadded]
    exact ih hhashed hrest

/-! ### Rebuilding -/

/-- A hashed tree is the one built over its leaf row. -/
theorem fromLeafHashes_leafRow (ht : t.Hashed H) :
    (fromLeafHashes H t.leafRow t.alg).nodes = t.nodes := by
  obtain ⟨a, ha⟩ := t.paddedCount_pow
  have hcount : nextPowerOfTwo t.leafRow.length = 2 ^ a := by
    rw [t.length_leafRow, ha, nextPowerOfTwo_two_pow]
  have hlen := (fromLeafHashes H t.leafRow t.alg).length_nodes
  have hlen' := t.length_nodes
  rw [fromLeafHashes_paddedCount] at hlen
  apply eq_of_label_eq (by omega)
  intro m h1 hm
  refine (fromLeafHashes_isHashed hcount).eq_of_leaves_eq (ht a ha) ?_ h1 (by omega)
  intro i hi
  -- a row of a power of two of leaves is not padded
  rw [fromLeafHashes_leaf hcount, paddedRow, hcount, t.length_leafRow, ha, Nat.sub_self,
    replicate_zero, append_nil, getD_eq_getElem?_getD,
    getElem?_leafRow (ha ▸ hi), Option.getD_some, ha]

theorem proof_computes_root (ht : t.Hashed H) (hcount : t.leafCount ≤ t.paddedCount) {i : ℕ}
    (hi : i < t.leafCount) :
    ∃ p x, t.proof i = some p ∧ t.leafHash i = some x ∧ p.computeRootFromHash H x = t.root := by
  obtain ⟨a, ha⟩ := t.paddedCount_pow
  have hproof := proof_eq_some hi
  refine ⟨_, label t.nodes (2 ^ a + i), hproof, ?_, ?_⟩
  · rw [leafHash, if_neg (by omega), ha, label,
      show 2 ^ a + i - 1 = 2 ^ a - 1 + i by omega]
  · rw [(computeRootFromHash_proof ha (by omega) hproof _).1]
    exact climb_eq_root (ht a ha) (fun _ _ => rfl) (by omega) (by rw [pow_succ]; omega) le_rfl

theorem leafCount_le_paddedCount (H : Hashers) (leaves : List Hash) (alg : HashAlg) :
    (fromLeafHashes H leaves alg).leafCount ≤ (fromLeafHashes H leaves alg).paddedCount := by
  rw [fromLeafHashes_leafCount, fromLeafHashes_paddedCount]
  exact le_nextPowerOfTwo _

/-- A tree that was built and then updated: the updates succeed exactly when they address the
padded row, the row is the built one with these leaves replaced, the nodes are those of the tree
built over that row, and every proof leads from its leaf to the root. -/
theorem updateLeaves_eq_rebuild {built : MerkleTree} {leaves : List Hash} {alg : HashAlg}
    (hbuilt : built = MerkleTree.fromLeafHashes H leaves alg ∨
      MerkleTree.build H leaves alg = .ok built) (updates : List (ℕ × Hash)) :
    ((∃ t, built.updateLeaves H updates = .ok t) ↔ ∀ u ∈ updates, u.1 < built.paddedCount) ∧
    ∀ t, built.updateLeaves H updates = .ok t →
      t.leafRow = updates.foldl (fun row u => row.set u.1 u.2) built.leafRow ∧
      (MerkleTree.fromLeafHashes H t.leafRow t.alg).nodes = t.nodes ∧
      ∀ i < t.leafCount, ∃ p x, t.proof i = some p ∧ t.leafHash i = some x ∧
        p.computeRootFromHash H x = t.root := by
  obtain rfl : built = fromLeafHashes H leaves alg := hbuilt.elim id build_eq_ok
  have hhashed := fromLeafHashes_hashed H leaves alg
  refine ⟨⟨fun ⟨t, h⟩ => lt_of_updateLeaves hhashed h, fun h => ?_⟩, fun t h => ?_⟩
  · obtain ⟨t, hok, -⟩ := updateLeaves_ok hhashed h
    exact ⟨t, hok⟩
  · obtain ⟨t', hok, hhashed', -, hcount, hpadded, hrow⟩ :=
      updateLeaves_ok hhashed (lt_of_updateLeaves hhashed h)
    obtain rfl := ok.inj (h.symm.trans hok)
    have hle := leafCount_le_paddedCount H leaves alg
    rw [← hcount, ← hpadded] at hle
    exact ⟨hrow, fromLeafHashes_leafRow hhashed', fun i hi => proof_computes_root hhashed' hle hi⟩

end

/-- Three leaves, of which the second and the padding are replaced. -/
theorem updateLeaves_eq_rebuild_threeLeaves :
    ∃ t, (MerkleTree.fromLeafHashes sha256Only [zeroHash, zeroHash, zeroHash]
        .sha256).updateLeaves sha256Only [(1, sha256 [0x61]), (3, sha256 [0x62])] = .ok t ∧
      (MerkleTree.fromLeafHashes sha256Only t.leafRow t.alg).nodes = t.nodes := by
  obtain ⟨hsucceeds, hrebuild⟩ := @updateLeaves_eq_rebuild sha256Only _
    [zeroHash, zeroHash, zeroHash] .sha256 (.inl rfl) [(1, sha256 [0x61]), (3, sha256 [0x62])]
  obtain ⟨t, ht⟩ := hsucceeds.mpr fun u hu => by
    rcases mem_pair.mp hu with rfl | rfl <;> decide
  exact ⟨t, ht, (hrebuild t ht).2.1⟩

end ClawHdf5.Merkle
