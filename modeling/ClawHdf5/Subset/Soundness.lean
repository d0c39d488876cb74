import ClawHdf5.Subset.Proof

/-!
# Soundness of subset proofs

Everything in a subset proof is chosen by the prover. A chunk is accepted because its leaf
digest leads to the trusted root, along one path or as part of a rebuilt subtree. Both are
paths in the sense of `LevelOrder.ClimbsTo`, so the root of an honest tree binds the chunk to
a leaf slot, and the height of the tree rules out every other way to read its index.
-/

namespace ClawHdf5.Subset

open Fallible LevelOrder MachineInt Merkle List Except Nat

variable {node idx : UInt64} {known next result : NodeMap} {hash leaf : Hash}

/-! ### Node positions

Node index `n` is position `n + 1` of the level-order tree. -/

section

variable {node node' : UInt64}

theorem parentIdx_position (h : node ≠ 0) : (parentIdx node).toNat + 1 = (node.toNat + 1) / 2 := by
  have hpos := toNat_pos h
  rw [parentIdx, UInt64.toNat_div, toNat_sub_one h]
  show (node.toNat - 1) / 2 + 1 = _
  omega

theorem odd_iff_even_position : node % 2 = 1 ↔ (node.toNat + 1) % 2 = 0 := by
  rw [← UInt64.toNat_inj]
  show node.toNat % 2 = 1 ↔ _
  omega

/-- Two nodes with one parent are each other's siblings. -/
theorem siblingIdx_of_parentIdx_eq (h : node ≠ 0) (h' : node' ≠ 0) (hne : node ≠ node')
    (hparent : parentIdx node = parentIdx node') :
    siblingIdx node = node' ∧ (node % 2 = 1 ↔ ¬ node' % 2 = 1) := by
  have hlt' := node'.toNat_lt
  have hdiff : node.toNat ≠ node'.toNat := fun heq => hne (UInt64.toNat_inj.mp heq)
  have hup := parentIdx_position h
  have hup' := parentIdx_position h'
  rw [hparent] at hup
  refine ⟨?_, by rw [odd_iff_even_position, odd_iff_even_position]; omega⟩
  apply UInt64.toNat_inj.mp
  unfold siblingIdx
  split_ifs with hodd
  · rw [odd_iff_even_position] at hodd
    rw [toNat_add_of_lt] <;> rw [UInt64.toNat_one] <;> omega
  · rw [odd_iff_even_position] at hodd
    rw [toNat_sub_one h]
    omega

theorem arrangePair_eq_arrange (node : UInt64) (x s : Hash) :
    arrangePair (decide (node % 2 = 1)) x s = arrange (node.toNat + 1) x s := by
  simp [arrangePair, arrange, odd_iff_even_position]

/-- So does the parity of the index of a leaf below it. -/
theorem arrangePair_eq_arrange_leaf (leafIdx : UInt64) (k : ℕ) (x s : Hash) :
    arrangePair (decide (leafIdx % 2 = 0)) x s =
      arrange (2 ^ (k + 1) + leafIdx.toNat % 2 ^ (k + 1)) x s := by
  have heven : leafIdx % 2 = 0 ↔ leafIdx.toNat % 2 = 0 := by
    rw [← UInt64.toNat_inj]
    rfl
  have hmod : leafIdx.toNat % 2 ^ (k + 1) % 2 = leafIdx.toNat % 2 :=
    mod_mod_of_dvd _ (dvd_pow_self 2 (succ_ne_zero k))
  have hparity : (2 ^ (k + 1) + leafIdx.toNat % 2 ^ (k + 1)) % 2 = leafIdx.toNat % 2 := by
    omega
  simp [arrangePair, arrange, heven, hparity]

theorem leafPosition_div_two (idx k : ℕ) :
    (2 ^ (k + 1) + idx % 2 ^ (k + 1)) / 2 = 2 ^ k + idx / 2 % 2 ^ k := by
  have hhalf : idx % 2 ^ (k + 1) / 2 = idx / 2 % 2 ^ k := by
    rw [pow_succ', mod_mul_right_div_self]
  omega

/-- A node index that lies in or below the leaf row did not wrap. -/
theorem leafNode_position {paddedCount : ℕ} {leafIdx : UInt64} (hpos : 0 < paddedCount)
    (hle : paddedCount ≤ 2 ^ 39) (h : paddedCount ≤ (leafNode paddedCount leafIdx).toNat + 1) :
    (leafNode paddedCount leafIdx).toNat + 1 = paddedCount + leafIdx.toNat := by
  have hlt := leafIdx.toNat_lt
  have hword : (UInt64.ofNat (paddedCount - 1)).toNat = paddedCount - 1 :=
    UInt64.toNat_ofNat_of_lt' (by show _ < 2 ^ 64; omega)
  rw [leafNode, UInt64.toNat_add] at h ⊢
  omega

end

/-! ### What is hashed -/

section

variable (H : Hashers) (alg : HashAlg)

/-- The pairs hashed by `walkToRoot`. -/
def walkPairs (proofNodes : NodeMap) : ℕ → UInt64 → UInt64 → Hash → List (Hash × Hash)
  | 0, _, _, _ => []
  | fuel + 1, node, levelLeafIdx, current =>
    if node > 0 then
      match proofNodes[siblingIdx node]? with
      | none => []
      | some siblingHash =>
        arrangePair (levelLeafIdx % 2 = 0) current siblingHash ::
          walkPairs proofNodes fuel (parentIdx node) (levelLeafIdx / 2)
            (hashParent H alg (levelLeafIdx % 2 = 0) current siblingHash)
    else []

/-- The pairs hashed to rebuild one level. -/
def levelPairs (known proofNodes : NodeMap) : List (Hash × Hash) :=
  known.toList.filterMap fun entry =>
    (siblingOf known proofNodes entry.1).map (arrangePair (entry.1 % 2 = 1) entry.2)

/-- The pairs hashed by `rebuildRoot`. -/
def rebuildPairs (proofNodes : NodeMap) : ℕ → NodeMap → List (Hash × Hash)
  | 0, _ => []
  | levels + 1, known =>
    levelPairs known proofNodes ++
      match rebuildLevel H alg known proofNodes known.toList ∅ with
      | .error _ => []
      | .ok next => rebuildPairs proofNodes levels next

/-- The leaf digests of the delivered chunks. -/
def deliveredLeaves (chunks : List ChunkData) : List (UInt64 × Hash) :=
  chunks.map fun c => (c.index, alg.hashLeaf H c.data)

/-- The map a rebuild starts from. -/
def knownLeaves (paddedCount : ℕ) (leaves : List (UInt64 × Hash)) : NodeMap :=
  Std.TreeMap.ofList (leaves.map fun leaf => (leafNode paddedCount leaf.1, leaf.2))

/-- The pairs hashed to reach the root. -/
def proofPairs (proofNodes : NodeMap) (paddedCount : ℕ) (leaves : List (UInt64 × Hash)) :
    ProofConstruction → List (Hash × Hash)
  | .naiveDedup => leaves.flatMap fun leaf =>
      walkPairs H alg proofNodes (leafNode paddedCount leaf.1).toNat
        (leafNode paddedCount leaf.1) leaf.1 leaf.2
  | .canonicalPruned =>
      rebuildPairs H alg proofNodes maxLevels (knownLeaves paddedCount leaves)

/-- What an accepting run of `verifySubsetWith` hashes, besides the certificate: the grid
parameters, the delivered chunks and the pairs above them. -/
def subsetPreimages (chunks : List ChunkData) (proof : SubsetProof)
    (expectedGrid : ChunkGridParams) (construction : ProofConstruction) : List Bytes :=
  expectedGrid.preimage :: (chunks.map fun c => contentPreimage c.data) ++
    match checkedPaddedLeafCount expectedGrid with
    | .error _ => []
    | .ok paddedCount =>
      (proofPairs H alg proof.proofNodes paddedCount (deliveredLeaves H alg chunks)
        construction).map fun p => pairPreimage p.1 p.2

end

/-! ### Paths to the root -/

section

variable {H : Hashers} {alg : HashAlg} {S : Set (Hash × Hash)} {proofNodes : NodeMap} {r : Hash}
variable {node : UInt64} {known next result : NodeMap} {hash : Hash}

/-- A walk that reached `r` is a path from the slot its leaf index names, at the depth of its
node. -/
theorem walkToRoot_climbsTo {fuel : ℕ} {levelLeafIdx : UInt64} {x : Hash}
    (h : walkToRoot H alg proofNodes fuel node levelLeafIdx x = .ok r) (hfuel : node.toNat ≤ fuel)
    (hS : ∀ p ∈ walkPairs H alg proofNodes fuel node levelLeafIdx x, p ∈ S) :
    ∃ k, 2 ^ k ≤ node.toNat + 1 ∧ node.toNat + 1 < 2 ^ (k + 1) ∧
      ClimbsTo (alg.hashPair H) S r (2 ^ k + levelLeafIdx.toNat % 2 ^ k) x := by
  induction fuel generalizing node levelLeafIdx x with
  | zero =>
    obtain rfl := ok.inj h
    refine ⟨0, by simp, by simp; omega, ?_⟩
    simpa [mod_one] using ClimbsTo.root
  | succ fuel ih =>
    by_cases hnode : node > 0
    · have hne : node ≠ 0 := fun h0 => absurd (h0 ▸ hnode) (by decide)
      have hposition := parentIdx_position hne
      rw [walkToRoot, if_pos hnode, bind_ok_iff] at h
      obtain ⟨s, hs, h⟩ := h
      rw [okOr_eq_ok] at hs
      rw [walkPairs, if_pos hnode, hs] at hS
      obtain ⟨hpair, hrest⟩ := forall_mem_cons.mp hS
      obtain ⟨k, hk, hk', hup⟩ := ih h (by omega) hrest
      refine ⟨k + 1, by rw [pow_succ]; omega, by rw [pow_succ]; omega, ?_⟩
      rw [arrangePair_eq_arrange_leaf levelLeafIdx k] at hpair
      refine .step ?_ hpair ?_
      · have hone := Nat.two_pow_pos k
        omega
      · rw [hashParent, arrangePair_eq_arrange_leaf levelLeafIdx k] at hup
        rw [leafPosition_div_two]
        exact hup
    · rw [walkToRoot, if_neg hnode] at h
      obtain rfl := ok.inj h
      have hzero : node.toNat = 0 := by
        by_contra h0
        exact hnode (UInt64.lt_iff_toNat_lt.mpr (pos_of_ne_zero h0))
      refine ⟨0, by simp, by simp [hzero], ?_⟩
      simpa [mod_one] using ClimbsTo.root

theorem rebuildNode_eq_ok {entry : UInt64 × Hash} :
    rebuildNode H alg known proofNodes next entry = .ok result ↔ entry.1 ≠ 0 ∧
        (next.contains (parentIdx entry.1) ∧ result = next ∨ ¬ next.contains (parentIdx entry.1) ∧
            ∃ s, siblingOf known proofNodes entry.1 = some s ∧
              result = next.insert (parentIdx entry.1)
                (hashParent H alg (entry.1 % 2 = 1) entry.2 s)) := by
  unfold rebuildNode
  by_cases hzero : entry.1 = 0
  · simp [hzero]
  · by_cases hin : next.contains (parentIdx entry.1)
    · simp [hzero, hin, eq_comm]
    · simp [hzero, hin, bind_ok_iff, eq_comm (a := result)]

/-- What rebuilding one level does: entries stay, every known node gets a parent, and every
new parent is hashed from a known node and its sibling. -/
theorem rebuildLevel_spec {entries : List (UInt64 × Hash)}
    (h : rebuildLevel H alg known proofNodes entries next = .ok result) :
    (∀ k, next.contains k → result.contains k) ∧
      (∀ entry ∈ entries, entry.1 ≠ 0 ∧ result.contains (parentIdx entry.1)) ∧
      ∀ k v, result[k]? = some v → next[k]? = some v ∨
        ∃ entry ∈ entries, ∃ s, parentIdx entry.1 = k ∧
          siblingOf known proofNodes entry.1 = some s ∧
          v = hashParent H alg (entry.1 % 2 = 1) entry.2 s := by
  induction entries generalizing next with
  | nil =>
    obtain rfl := ok.inj h
    exact ⟨fun _ hk => hk, fun _ hmem => absurd hmem not_mem_nil, fun _ _ hv => .inl hv⟩
  | cons entry entries ih =>
    rw [rebuildLevel, bind_ok_iff] at h
    obtain ⟨next', hnode, h⟩ := h
    obtain ⟨hkept, hentries, hnew⟩ := ih h
    have hlift : ∀ k v, (next'[k]? = some v ∨ ∃ e ∈ entries, ∃ s, parentIdx e.1 = k ∧
        siblingOf known proofNodes e.1 = some s ∧
        v = hashParent H alg (e.1 % 2 = 1) e.2 s) → next'[k]? = some v ∨
        ∃ e ∈ entry :: entries, ∃ s, parentIdx e.1 = k ∧ siblingOf known proofNodes e.1 = some s ∧
          v = hashParent H alg (e.1 % 2 = 1) e.2 s := fun k v hv =>
      hv.imp_right fun ⟨e, he, hrest⟩ => ⟨e, mem_cons_of_mem _ he, hrest⟩
    obtain ⟨hne, ⟨hin, rfl⟩ | ⟨-, s, hs, rfl⟩⟩ := rebuildNode_eq_ok.mp hnode
    · exact ⟨hkept, forall_mem_cons.mpr ⟨⟨hne, hkept _ hin⟩, hentries⟩,
        fun k v hv => hlift k v (hnew k v hv)⟩
    · refine ⟨fun k hk => hkept k ?_, forall_mem_cons.mpr ⟨⟨hne, hkept _ ?_⟩, hentries⟩,
        fun k v hv => ?_⟩
      · rw [Std.TreeMap.contains_insert, hk, Bool.or_true]
      · exact Std.TreeMap.contains_insert_self
      · rcases hlift k v (hnew k v hv) with hv | hv
        · rw [Std.TreeMap.getElem?_insert] at hv
          split_ifs at hv with hk
          · rw [Std.compare_eq_iff_eq] at hk
            exact .inr ⟨entry, mem_cons_self, s, hk, hs, (Option.some.inj hv).symm⟩
          · exact .inl hv
        · exact .inr hv

/-- Every known node is one hashed pair below an entry of the rebuilt level. -/
theorem rebuildLevel_parent (h : rebuildLevel H alg known proofNodes known.toList ∅ = .ok next)
    (hknown : known[node]? = some hash) :
    node ≠ 0 ∧ ∃ s, arrangePair (node % 2 = 1) hash s ∈ levelPairs known proofNodes ∧
      next[parentIdx node]? = some (hashParent H alg (node % 2 = 1) hash s) := by
  obtain ⟨-, hentries, hnew⟩ := rebuildLevel_spec h
  have hmem {n : UInt64} {x : Hash} : (n, x) ∈ known.toList ↔ known[n]? = some x :=
    Std.TreeMap.mem_toList_iff_getElem?_eq_some
  obtain ⟨hne, hin⟩ := hentries _ (hmem.mpr hknown)
  obtain ⟨v, hv⟩ := Option.isSome_iff_exists.mp
    ((Std.TreeMap.isSome_getElem?_eq_contains).trans hin)
  refine ⟨hne, ?_⟩
  have hpairs {n : UInt64} {x s : Hash} (hn : known[n]? = some x)
      (hs : siblingOf known proofNodes n = some s) :
      arrangePair (n % 2 = 1) x s ∈ levelPairs known proofNodes :=
    mem_filterMap.mpr ⟨(n, x), hmem.mpr hn, by rw [hs]; rfl⟩
  rcases hnew _ v hv with hempty | ⟨⟨node', hash'⟩, hentry, s, hparent, hs, rfl⟩
  · simp at hempty
  · have hknown' := hmem.mp hentry
    by_cases heq : node' = node
    · subst heq
      rw [hknown, Option.some.injEq] at hknown'
      subst hknown'
      exact ⟨s, hpairs hknown hs, hv⟩
    · -- the parent was hashed from the sibling, which found this node among the known ones
      obtain ⟨hsib', -⟩ := siblingIdx_of_parentIdx_eq (hentries _ hentry).1 hne heq hparent
      obtain ⟨hsib, hside⟩ := siblingIdx_of_parentIdx_eq hne (hentries _ hentry).1
        (Ne.symm heq) hparent.symm
      have hs' : s = hash := by
        rw [siblingOf, hsib', hknown] at hs
        exact (Option.some.inj hs).symm
      have hself : siblingOf known proofNodes node = some hash' := by
        rw [siblingOf, hsib, hknown']
        rfl
      refine ⟨hash', hpairs hknown hself, ?_⟩
      rw [hv, hs']
      simp only [hashParent, arrangePair, hside]
      by_cases hodd : node' % 2 = 1 <;> simp

theorem eq_zero_of_size_eq_one (hsize : known.size = 1) (hzero : known.contains 0)
    (hnode : known.contains node) : node = 0 := by
  obtain ⟨k, hk⟩ := length_eq_one_iff.mp ((Std.TreeMap.length_keys).trans hsize)
  have hmem {n : UInt64} (hn : known.contains n) : n = k := by
    rw [← mem_singleton, ← hk, Std.TreeMap.mem_keys]
    exact hn
  rw [hmem hnode, hmem hzero]

theorem climbsTo_of_rootOnly (hroot : known.size = 1 ∧ known.contains 0)
    (hr : known[(0 : UInt64)]? = some r) (hknown : known[node]? = some hash) :
    ClimbsTo (alg.hashPair H) S r (node.toNat + 1) hash := by
  have hin : known.contains node := by
    rw [← Std.TreeMap.isSome_getElem?_eq_contains, hknown, Option.isSome_some]
  obtain rfl := eq_zero_of_size_eq_one hroot.1 hroot.2 hin
  rw [hr, Option.some.injEq] at hknown
  exact hknown ▸ .root

/-- A rebuild that ends in the root `r` gives a path for every known node. -/
theorem rebuildRoot_climbsTo {levels : ℕ}
    (h : rebuildRoot H alg proofNodes levels known = .ok result)
    (hr : result[(0 : UInt64)]? = some r)
    (hS : ∀ p ∈ rebuildPairs H alg proofNodes levels known, p ∈ S)
    (hknown : known[node]? = some hash) :
    ClimbsTo (alg.hashPair H) S r (node.toNat + 1) hash := by
  induction levels generalizing known node hash with
  | zero =>
    unfold rebuildRoot at h
    split_ifs at h with hroot
    obtain rfl := ok.inj h
    exact climbsTo_of_rootOnly hroot hr hknown
  | succ levels ih =>
    unfold rebuildRoot at h
    split_ifs at h with hroot
    · obtain rfl := ok.inj h
      exact climbsTo_of_rootOnly hroot hr hknown
    · obtain ⟨next, hnext, h⟩ := bind_ok_iff.mp h
      obtain ⟨hne, s, hpair, hparent⟩ := rebuildLevel_parent hnext hknown
      rw [rebuildPairs, hnext] at hS
      have hup := ih h (fun p hp => hS p (mem_append_right _ hp)) hparent
      have hmem := hS _ (mem_append_left _ hpair)
      rw [parentIdx_position hne, hashParent, arrangePair_eq_arrange] at hup
      rw [arrangePair_eq_arrange] at hmem
      exact .step (succ_le_succ (toNat_pos hne)) hmem hup

end

/-! ### The committed tree -/

section

/-- The preimage of a leaf slot: a chunk, or nothing. -/
def slotPreimage : Option Bytes → Bytes
  | none => nullPreimage
  | some data => contentPreimage data

/-- A tree of content leaves. Slots that the leaf order skips hold the null sentinel. -/
def contentTree (H : Hashers) (alg : HashAlg) (slots : List (Option Bytes)) : MerkleTree :=
  MerkleTree.fromLeafHashes H
    (slots.map fun
      | none => alg.nullSentinel H
      | some data => alg.hashLeaf H data) alg

/-- What the writer of `contentTree` hashes. -/
def contentPreimages (H : Hashers) (alg : HashAlg) (slots : List (Option Bytes)) : List Bytes :=
  slots.map slotPreimage ++ (contentTree H alg slots).preimages

variable {H : Hashers} {alg : HashAlg} {slots : List (Option Bytes)} {occurring : List Bytes}

theorem contentTree_eq_rowTree :
    contentTree H alg slots = rowTree H alg (slots.map slotPreimage) := by
  rw [contentTree, rowTree, map_map]
  congr 2
  funext slot
  cases slot <;> rfl

theorem contentPreimage_ne_pairPreimage (data : Bytes) (l r : Hash) :
    contentPreimage data ≠ pairPreimage l r :=
  LeafFormat.content.preimage_ne_pairPreimage 0 data 0 l r

theorem contentPreimage_ne_nullPreimage (data : Bytes) : contentPreimage data ≠ nullPreimage :=
  LeafFormat.content.preimage_ne_nullPreimage 0 data 0

theorem occurs_content (h : ∀ x ∈ contentPreimages H alg slots, x ∈ occurring) :
    Occurs H alg occurring (slots.map slotPreimage) where
  mem x hx := h x (mem_append_left _ hx)
  mem_tree x hx := h x (mem_append_right _ (contentTree_eq_rowTree ▸ hx))
  leaf x hx l r := by
    obtain ⟨slot, -, rfl⟩ := mem_map.mp hx
    cases slot with
    | none => exact nullPreimage_ne_pairPreimage l r
    | some data => exact contentPreimage_ne_pairPreimage data l r

/-- A path from the digest of a leaf to the root of a committed tree starts in the leaf row,
at a slot with the leaf's preimage. -/
theorem rowPreimage_of_climbsTo (hcf : CollisionFree (alg.hashRaw H) occurring)
    (hslots : ∀ x ∈ contentPreimages H alg slots, x ∈ occurring) {x : Bytes}
    (hx : x ∈ occurring) (hleaf : ∀ l r, x ≠ pairPreimage l r) {m : ℕ}
    (h : ClimbsTo (alg.hashPair H) (hashedPairs occurring) (contentTree H alg slots).root m
      (alg.hashRaw H x)) :
    (contentTree H alg slots).paddedCount ≤ m ∧ m < 2 * (contentTree H alg slots).paddedCount ∧
      (rowPreimages (slots.map slotPreimage))[m - (contentTree H alg slots).paddedCount]? =
        some x := by
  obtain ⟨k, sib, hk, hk', hpairs, hclimb⟩ := h.exists_climb
  obtain ⟨i, rfl⟩ : ∃ i, m = 2 ^ k + i := ⟨m - 2 ^ k, by omega⟩
  have hi : i < 2 ^ k := by
    omega
  rw [contentTree_eq_rowTree] at hclimb ⊢
  obtain ⟨hwidth, hslot⟩ := getElem?_rowPreimages_of_climb hcf (occurs_content hslots) hi hx
    hleaf hpairs hclimb
  have hpadded : (rowTree H alg (slots.map slotPreimage)).paddedCount = 2 ^ k := by
    rw [rowTree, fromLeafHashes_paddedCount, length_map, hwidth]
  rw [hpadded]
  exact ⟨hk, by omega, by rwa [Nat.add_sub_cancel_left]⟩

/-- The slot of a chunk's preimage is a leaf of the tree. -/
theorem leafHash_of_rowPreimage {i : ℕ} {data : Bytes}
    (h : (rowPreimages (slots.map slotPreimage))[i]? = some (contentPreimage data)) :
    (contentTree H alg slots).leafHash i = some (alg.hashLeaf H data) := by
  have hrow := getElem?_of_rowPreimages h (contentPreimage_ne_nullPreimage data)
  have hlt := lt_of_getElem? hrow
  obtain ⟨k, hwidth⟩ := exists_nextPowerOfTwo (slots.map slotPreimage).length
  have hi : i < 2 ^ k := hlt.trans_le (hwidth ▸ le_nextPowerOfTwo _)
  rw [contentTree_eq_rowTree]
  have hpadded : (rowTree H alg (slots.map slotPreimage)).paddedCount = 2 ^ k := by
    rw [rowTree, fromLeafHashes_paddedCount, length_map, hwidth]
  obtain ⟨x, hx, hlabel⟩ := Occurs.label_leaf H alg hwidth hi
  rw [h, Option.some.injEq] at hx
  have hcount : (rowTree H alg (slots.map slotPreimage)).leafCount =
      (slots.map slotPreimage).length := by
    rw [rowTree, fromLeafHashes_leafCount, length_map]
  rw [MerkleTree.leafHash, hcount, if_neg (not_le.mpr hlt), hpadded]
  rw [← hx] at hlabel
  rw [show 2 ^ k - 1 + i = 2 ^ k + i - 1 by omega]
  exact congrArg some hlabel

/-- A path from the digest of a chunk to the root of a committed tree starts at a leaf slot
that holds the chunk. -/
theorem slot_of_climbsTo (hcf : CollisionFree (alg.hashRaw H) occurring)
    (hslots : ∀ x ∈ contentPreimages H alg slots, x ∈ occurring) {data : Bytes}
    (hdata : contentPreimage data ∈ occurring) {m : ℕ}
    (h : ClimbsTo (alg.hashPair H) (hashedPairs occurring) (contentTree H alg slots).root m
      (alg.hashLeaf H data)) :
    (contentTree H alg slots).paddedCount ≤ m ∧ m < 2 * (contentTree H alg slots).paddedCount ∧
      (contentTree H alg slots).leafHash (m - (contentTree H alg slots).paddedCount) =
        some (alg.hashLeaf H data) := by
  obtain ⟨hlo, hhi, hslot⟩ := rowPreimage_of_climbsTo hcf hslots hdata
    (contentPreimage_ne_pairPreimage data) h
  exact ⟨hlo, hhi, leafHash_of_rowPreimage hslot⟩

end

/-! ### Accepting runs -/

section

variable {H : Hashers} {alg : HashAlg} {root : Hash} {chunks : List ChunkData}
  {proof : SubsetProof} {expectedGrid : ChunkGridParams} {trustedGridHash : Hash}
  {sel : Selection} {order : LeafOrder} {construction : ProofConstruction}

theorem checkLeaves_eq_ok {leafHashes leaves : List Hash} {cs : List (ChunkData × UInt64)} :
    checkLeaves H alg leafHashes cs = .ok leaves ↔
      (∀ i (h : i < cs.length), leafHashes[i]? = some (alg.hashLeaf H cs[i].1.data)) ∧
        leaves = cs.map fun c => alg.hashLeaf H c.1.data := by
  unfold checkLeaves
  rw [traverseIdx_eq_ok (P := fun i c => leafHashes[i]? = some (alg.hashLeaf H c.1.data))
    (g := fun _ c => alg.hashLeaf H c.1.data)]
  · have hmap : cs.mapIdx (fun _ c => alg.hashLeaf H c.1.data) =
        cs.map fun c => alg.hashLeaf H c.1.data := ext_getElem (by simp) (by simp)
    simp only [zero_add, hmap]
  · intro i c y
    simp only [bind_ok_iff, index_eq_ok, returning_eq_ok, reject_eq_ok, not_not,
      constantTimeEq_iff, exists_const, ok.injEq]
    constructor
    · rintro ⟨claimed, hclaimed, rfl, rfl⟩
      exact ⟨hclaimed, rfl⟩
    · rintro ⟨hclaimed, rfl⟩
      exact ⟨_, hclaimed, rfl, rfl⟩

theorem eq_map_index_of_zip {indices : List UInt64} (hlen : chunks.length = indices.length)
    (h : ∀ c ∈ chunks.zip indices, c.1.index = c.2) : indices = chunks.map ChunkData.index := by
  refine ext_getElem (by rw [← hlen, length_map]) fun i hi hi' => ?_
  rw [length_map] at hi'
  have hmem : (chunks[i], indices[i]) ∈ chunks.zip indices :=
    mem_of_getElem? (i := i) (by simp [hi, hi'])
  rw [getElem_map]
  exact (h _ hmem).symm

/-- An accepting run: the grid is the trusted one, the delivered indices are the expected
ones, the leaf digests of the proof are those of the chunks, and they lead to the root. -/
theorem verifySubsetWith_eq_ok :
    verifySubsetWith H alg root chunks proof expectedGrid trustedGridHash sel order
        construction = .ok true ↔
      alg.hashRaw H expectedGrid.preimage = trustedGridHash ∧
      proof.chunkIndices = chunks.map ChunkData.index ∧
      proof.leafHashes = chunks.map (fun c => alg.hashLeaf H c.data) ∧
      computeExpectedChunkIndices expectedGrid sel order = .ok (chunks.map ChunkData.index) ∧
      coverageCert H ((chunks.map ChunkData.index).insertionSort (· ≤ ·))
        proof.gridParams.gridHash alg = proof.coverageCert ∧
      ∃ paddedCount, checkedPaddedLeafCount expectedGrid = .ok paddedCount ∧
        checkProof H alg root proof.proofNodes paddedCount (deliveredLeaves H alg chunks)
          construction = .ok true := by
  simp only [verifySubsetWith, bind_ok_iff, returning_eq_ok, reject_eq_ok, exists_const, not_not,
    constantTimeEq_iff, not_or, not_exists, not_and, checkLeaves_eq_ok]
  constructor
  · rintro ⟨hgrid, ⟨hlen, hlen'⟩, hindices, _, hexpected, rfl, hcert, paddedCount, hpadded,
      _, ⟨hleaves, rfl⟩, hcheck⟩
    have hmap := eq_map_index_of_zip hlen hindices
    rw [hmap, ← map_prod_left_eq_zip] at hleaves hcheck
    refine ⟨hgrid, hmap, ?_, hmap ▸ hexpected, hcert, paddedCount, hpadded, ?_⟩
    · refine ext_getElem? fun i => ?_
      by_cases hi : i < chunks.length
      · rw [hleaves i (by simpa using hi)]
        simp [hi]
      · rw [getElem?_eq_none (by omega), getElem?_eq_none (by simpa using hi)]
    · rwa [map_map, zip_map'] at hcheck
  · rintro ⟨hgrid, hindices, hleaves, hexpected, hcert, paddedCount, hpadded, hcheck⟩
    refine ⟨hgrid, ?_, ?_, _, hexpected, hindices, hcert, paddedCount, hpadded, _, ⟨?_, rfl⟩, ?_⟩
    · rw [hindices, hleaves, length_map, length_map]
      exact ⟨rfl, rfl⟩
    · rw [hindices, ← map_prod_left_eq_zip]
      simp
    · rw [hindices, hleaves, ← map_prod_left_eq_zip]
      intro i hi
      rw [length_map] at hi
      simp [hi]
    · rwa [hindices, ← map_prod_left_eq_zip, map_map, zip_map']

end

/-! ### Soundness -/

section

variable {H : Hashers} {alg : HashAlg} {root : Hash} {S : Set (Hash × Hash)}
  {proofNodes : NodeMap} {paddedCount : ℕ} {leaves : List (UInt64 × Hash)}
variable {idx : UInt64} {leaf : Hash}

theorem walkToRoot_of_checkPaths
    (h : checkPaths H alg root proofNodes paddedCount leaves = .ok true)
    (hmem : (idx, leaf) ∈ leaves) :
    walkToRoot H alg proofNodes (leafNode paddedCount idx).toNat (leafNode paddedCount idx) idx
      leaf = .ok root := by
  induction leaves with
  | nil => exact absurd hmem not_mem_nil
  | cons first rest ih =>
    simp only [checkPaths, bind_ok_iff, reject_eq_ok, not_not, constantTimeEq_iff,
      exists_const] at h
    obtain ⟨_, hwalk, rfl, hrest⟩ := h
    rcases mem_cons.mp hmem with heq | hmem
    · obtain ⟨rfl, rfl⟩ := Prod.mk.inj heq
      exact hwalk
    · exact ih hrest hmem

/-- Distinct leaves are all known at the start of a rebuild. -/
theorem getElem?_knownLeaves (hnodup : (leaves.map Prod.fst).Nodup) (hmem : (idx, leaf) ∈ leaves) :
    (knownLeaves paddedCount leaves)[leafNode paddedCount idx]? = some leaf := by
  refine Std.TreeMap.getElem?_ofList_of_mem (k := leafNode paddedCount idx)
    (Std.ReflCmp.compare_self) ?_ (mem_map.mpr ⟨(idx, leaf), hmem, rfl⟩)
  rw [pairwise_map]
  refine (pairwise_map.mp hnodup).imp fun hne heq => hne ?_
  exact (UInt64.add_right_inj _).mp (Std.compare_eq_iff_eq.mp heq)

/-- Every delivered leaf leads to the root, and from the position its index names if that
position is in the leaf row at all. -/
theorem climbsTo_of_checkProof {construction : ProofConstruction} {a : ℕ}
    (hpow : paddedCount = 2 ^ a) (hle : paddedCount ≤ 2 ^ 39)
    (h : checkProof H alg root proofNodes paddedCount leaves construction = .ok true)
    (hS : ∀ p ∈ proofPairs H alg proofNodes paddedCount leaves construction, p ∈ S)
    (hnodup : (leaves.map Prod.fst).Nodup) (hmem : (idx, leaf) ∈ leaves) :
    ∃ m, ClimbsTo (alg.hashPair H) S root m leaf ∧
      (paddedCount ≤ m → m < 2 * paddedCount → m = paddedCount + idx.toNat) := by
  have hpos : 0 < paddedCount := hpow ▸ Nat.two_pow_pos a
  cases construction with
  | naiveDedup =>
    obtain ⟨k, hk, hk', hclimb⟩ := walkToRoot_climbsTo (walkToRoot_of_checkPaths h hmem) le_rfl
      fun p hp => hS p (mem_flatMap.mpr ⟨(idx, leaf), hmem, hp⟩)
    refine ⟨_, hclimb, fun hlo hhi => ?_⟩
    -- the path has the height of the tree, so the node index did not wrap
    have hka : k = a := by
      have hpow1 : 2 ^ k < 2 ^ (a + 1) := by
        omega
      have hpow2 : 2 ^ a < 2 ^ (k + 1) := by
        omega
      rw [Nat.pow_lt_pow_iff_right (by decide)] at hpow1 hpow2
      omega
    subst hka
    have hnode : (leafNode paddedCount idx).toNat + 1 = paddedCount + idx.toNat :=
      leafNode_position hpos hle (hpow ▸ hk)
    rw [hpow, mod_eq_of_lt (by omega)]
  | canonicalPruned =>
    simp only [checkProof, checkRebuilt, bind_ok_iff, okOr_eq_ok, reject_eq_ok, not_not,
      constantTimeEq_iff, exists_const, and_true] at h
    obtain ⟨rebuilt, hrebuilt, _, hroot, rfl⟩ := h
    refine ⟨_, rebuildRoot_climbsTo hrebuilt hroot hS (getElem?_knownLeaves hnodup hmem), ?_⟩
    exact fun hlo _ => leafNode_position hpos hle hlo

end

section

variable {H : Hashers} {alg : HashAlg} {slots : List (Option Bytes)}
  {committed expectedGrid : ChunkGridParams} {trustedGridHash : Hash} {chunks : List ChunkData}
  {proof : SubsetProof} {sel : Selection} {order : LeafOrder} {construction : ProofConstruction}

/-- What a grid hashes binds its parameters, and with them the size of the tree. -/
theorem grid_of_preimage_eq {n m : ℕ} (hn : checkedPaddedLeafCount expectedGrid = .ok n)
    (hm : checkedPaddedLeafCount committed = .ok m)
    (h : expectedGrid.preimage = committed.preimage) :
    (expectedGrid.dims = committed.dims ∧ expectedGrid.chunkShape = committed.chunkShape ∧
      expectedGrid.elemSize = committed.elemSize ∧
      expectedGrid.layoutClass = committed.layoutClass) ∧ n = m := by
  have hsame := gridPreimage_inj (validGrid_of_checked hn).length_eq
    (validGrid_of_checked hm).length_eq h
  refine ⟨hsame, ok.inj (hn.symm.trans (.trans ?_ hm))⟩
  simp [checkedPaddedLeafCount, validateGridShape, hsame.1, hsame.2.1]

/-- **Subset soundness.** Against the root of a committed content tree and the hash of its
grid, whatever the proof and the chunks are, an accepted delivery is for the committed grid,
covers exactly the expected indices, and holds at each of them the committed leaf. -/
theorem verifySubsetWith_sound
    (hsize : checkedPaddedLeafCount committed = .ok (contentTree H alg slots).paddedCount)
    (hgrid : computeGridHash H committed.dims committed.chunkShape committed.elemSize
      committed.layoutClass alg = trustedGridHash)
    (hcf : CollisionFree (alg.hashRaw H)
      (contentPreimages H alg slots ++ committed.preimage ::
        subsetPreimages H alg chunks proof expectedGrid construction))
    (hok : verifySubsetWith H alg (contentTree H alg slots).root chunks proof expectedGrid
      trustedGridHash sel order construction = .ok true) :
    (expectedGrid.dims = committed.dims ∧ expectedGrid.chunkShape = committed.chunkShape ∧
      expectedGrid.elemSize = committed.elemSize ∧
      expectedGrid.layoutClass = committed.layoutClass) ∧
    computeExpectedChunkIndices expectedGrid sel order = .ok (chunks.map ChunkData.index) ∧
    ∀ c ∈ chunks, (contentTree H alg slots).leafHash c.index.toNat =
      some (alg.hashLeaf H c.data) := by
  obtain ⟨htrusted, -, -, hexpected, -, paddedCount, hpadded, hcheck⟩ :=
    verifySubsetWith_eq_ok.mp hok
  have hvalid := validGrid_of_checked hpadded
  have hpreimage : expectedGrid.preimage = committed.preimage :=
    hcf _ (by simp [subsetPreimages]) _ (by simp) (htrusted.trans hgrid.symm)
  obtain ⟨hsame, rfl⟩ := grid_of_preimage_eq hpadded hsize hpreimage
  refine ⟨hsame, hexpected, fun c hc => ?_⟩
  obtain ⟨a, -, hpow⟩ := hvalid.height
  -- the root binds each leaf to the slot its path starts from
  have hnodup : ((deliveredLeaves H alg chunks).map Prod.fst).Nodup := by
    rw [deliveredLeaves, map_map]
    exact nodup_of_computeExpectedChunkIndices hexpected
  have hpairs : ∀ p ∈ proofPairs H alg proof.proofNodes (contentTree H alg slots).paddedCount
      (deliveredLeaves H alg chunks) construction, p ∈ hashedPairs (contentPreimages H alg slots ++
        committed.preimage :: subsetPreimages H alg chunks proof expectedGrid construction) := by
    intro p hp
    simp only [hashedPairs, subsetPreimages, hpadded, mem_append,
      mem_cons, mem_map]
    exact .inr (.inr (.inr ⟨p, hp, rfl⟩))
  have hdata : contentPreimage c.data ∈ contentPreimages H alg slots ++ committed.preimage ::
      subsetPreimages H alg chunks proof expectedGrid construction := by
    simp only [subsetPreimages, mem_append, mem_cons, mem_map]
    exact .inr (.inr (.inl (.inr ⟨c, hc, rfl⟩)))
  obtain ⟨m, hclimb, hposition⟩ := climbsTo_of_checkProof hpow hvalid.paddedCount_le hcheck
    hpairs hnodup (mem_map.mpr ⟨c, hc, rfl⟩)
  obtain ⟨hlo, hhi, hleaf⟩ :=
    slot_of_climbsTo hcf (fun x hx => mem_append_left _ hx) hdata hclimb
  rwa [hposition hlo hhi, Nat.add_sub_cancel_left] at hleaf

/-- Two chunks of one element each. -/
def twoChunks : ChunkGridParams :=
  .new sha256Only [2] [1] 1 .chunked .sha256

def twoSlots : List (Option Bytes) := [some [0x61], some [0x62]]

/-- The pruned proof for the second chunk: its sibling is the first. -/
def secondChunkProof : SubsetProof where
  chunkIndices := [1]
  leafHashes := [HashAlg.sha256.hashLeaf sha256Only [0x62]]
  proofNodes := Std.TreeMap.ofList [((1 : UInt64), HashAlg.sha256.hashLeaf sha256Only [0x61])]
  gridParams := twoChunks
  coverageCert := coverageCert sha256Only [1] twoChunks.gridHash .sha256

theorem verifySubsetWith_sound_secondChunk :
    (twoChunks.dims = [2] ∧ twoChunks.chunkShape = [1] ∧ twoChunks.elemSize = 1 ∧
      twoChunks.layoutClass = .chunked) ∧
    computeExpectedChunkIndices twoChunks (.points [[1]]) .rowMajor = .ok [1] ∧
    ∀ c ∈ [ChunkData.mk 1 [0x62]], (contentTree sha256Only .sha256 twoSlots).leafHash
      c.index.toNat = some (HashAlg.sha256.hashLeaf sha256Only c.data) :=
  @verifySubsetWith_sound sha256Only .sha256 twoSlots twoChunks twoChunks twoChunks.gridHash
    [⟨1, [0x62]⟩] secondChunkProof (.points [[1]]) .rowMajor .canonicalPruned
    (by decide +kernel) rfl (by decide +kernel) (by decide +kernel)

end

end ClawHdf5.Subset
