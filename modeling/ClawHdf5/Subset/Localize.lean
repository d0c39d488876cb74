import ClawHdf5.Subset.Mesh

/-!
# Localizing tampered chunks

A coarse leaf that does not verify indicts all chunks below it. The descent compares the nodes below
it with the values computed from the delivered chunks, follows every branch that disagrees, and
names the leaves it reaches.

A branch that agrees has no bad leaf below, as long as the pairs that are hashed do not collide. So
each round keeps the bad leaves below the frontier. The descent starts at the coarse leaf without
comparing it; on level 0 that is the leaf it names.
-/

namespace ClawHdf5.Subset

open Fallible LevelOrder MachineInt Merkle SortDedup List

/-- What a descent has found, and what it cost. -/
structure Localization where
  badLeaves : List ℕ
  rounds : ℕ
  wireHashes : ℕ
  deriving DecidableEq

/-- The index of a coarse leaf in the tree. -/
def MeshLevel.coarseNodeIndex (l : MeshLevel) (paddedCount coarse : ℕ) :
    Except MerkleError ℕ := do
  let coarseRow ← l.coarseRowLen paddedCount
  .ok (coarseRow - 1 + coarse)

section

variable (H : Hashers) (alg : HashAlg) (nodes : List Hash) (internalNodes : ℕ)
  (recomputed : Std.TreeMap ℕ Hash)

/-- The verifier's value of a node `height` rows above the leaves. -/
def verifierValue : ℕ → ℕ → Hash
  | 0, node => recomputed[node - internalNodes]?.getD (alg.nullSentinel H)
  | height + 1, node =>
    alg.hashPair H (verifierValue height (2 * node + 1)) (verifierValue height (2 * node + 2))

/-- Fetch a node and compare it. The node is returned if the two disagree. -/
def compareNode (child : ℕ × ℕ) : Except MerkleError (Option (ℕ × ℕ)) := do
  let stored ← okOr (.hyperslabOutOfBounds child.1) nodes[child.1]?
  let mine := verifierValue H alg internalNodes recomputed child.2 child.1
  .ok (if constantTimeEq mine stored then none else some child)

def children (frontier : List (ℕ × ℕ)) : List (ℕ × ℕ) :=
  frontier.flatMap fun entry =>
    [(2 * entry.1 + 1, entry.2 - 1), (2 * entry.1 + 2, entry.2 - 1)]

/-- Descend round by round. All nodes of a frontier have one height, which falls by one in each
round. -/
def descend : ℕ → List (ℕ × ℕ) → Localization → Except MerkleError Localization
  | 0, _, out => .ok out
  | _ + 1, [], out => .ok out
  | fuel + 1, (node, height) :: rest, out =>
    if height = 0 then
      .ok { out with
        badLeaves := out.badLeaves ++ ((node, height) :: rest).map fun entry =>
          entry.1 - internalNodes }
    else do
      let next ← collectFound (compareNode H alg nodes internalNodes recomputed)
        (children ((node, height) :: rest))
      let out := { out with
        rounds := out.rounds + 1
        wireHashes := out.wireHashes + (children ((node, height) :: rest)).length }
      if next.isEmpty then .ok out else descend fuel next out

end

/-- Descend below one coarse leaf to name the bad leaves. -/
def localizeInGroup (H : Hashers) (tree : MerkleTree) (recomputed : Std.TreeMap ℕ Hash)
    (level : MeshLevel) (coarse : ℕ) : Except MerkleError Localization := do
  let coarseRow ← level.coarseRowLen tree.paddedCount
  reject (coarseRow ≤ coarse) (.hyperslabOutOfBounds coarse)
  let top ← level.coarseNodeIndex tree.paddedCount coarse
  let out ← descend H tree.alg tree.nodes (tree.paddedCount - 1) recomputed
    (level.level.toNat + 1) [(top, level.level.toNat)] ⟨[], 0, 0⟩
  .ok { out with badLeaves := sortDedup (· ≤ ·) out.badLeaves }

/-! ### What a descent finds -/

/-- The verifier's digest of a leaf position. -/
def verifierLeaf (H : Hashers) (alg : HashAlg) (recomputed : Std.TreeMap ℕ Hash)
    (paddedCount m : ℕ) : Hash :=
  recomputed[m - paddedCount]?.getD (alg.nullSentinel H)

section

variable {H : Hashers} {alg : HashAlg} {nodes : List Hash} {recomputed : Std.TreeMap ℕ Hash}
  {a : ℕ}

/-- The verifier's value is computed from its leaves. -/
theorem verifierValue_eq_value (height node : ℕ) :
    verifierValue H alg (2 ^ a - 1) recomputed height node =
      value (alg.hashPair H) (verifierLeaf H alg recomputed (2 ^ a)) height (node + 1) := by
  induction height generalizing node with
  | zero =>
    have hleaf : node - (2 ^ a - 1) = node + 1 - 2 ^ a := by
      have := Nat.one_le_two_pow (n := a)
      omega
    rw [verifierValue, value, verifierLeaf, hleaf]
  | succ height ih =>
    rw [verifierValue, ih, ih]
    rfl

variable (H alg nodes recomputed a) in
/-- Whether the verifier's value of a position is not the one in the tree. -/
def Differs (h m : ℕ) : Prop :=
  value (alg.hashPair H) (verifierLeaf H alg recomputed (2 ^ a)) h m ≠ label nodes m
  deriving Decidable

variable (H alg nodes recomputed a) in
/-- The bad leaf positions below a position. -/
def badBelow (h m : ℕ) : List ℕ := (below h m).filter (Differs H alg nodes recomputed a 0 ·)

theorem badBelow_succ (h m : ℕ) : badBelow H alg nodes recomputed a (h + 1) m =
      badBelow H alg nodes recomputed a h (2 * m) ++
        badBelow H alg nodes recomputed a h (2 * m + 1) := by
  rw [badBelow, below, filter_append, badBelow, badBelow]

/-- A node that is fetched is followed if it disagrees. -/
theorem compareNode_eq {child : ℕ × ℕ} (hlt : child.1 < nodes.length) :
    compareNode H alg nodes (2 ^ a - 1) recomputed child =
      .ok (Option.guard (fun child => Differs H alg nodes recomputed a child.2 (child.1 + 1))
        child) := by
  have hstored : nodes[child.1]? = some (label nodes (child.1 + 1)) := by
    rw [label, Nat.add_sub_cancel, getD_eq_getElem?_getD, getElem?_eq_getElem hlt, Option.getD_some]
  unfold compareNode
  rw [hstored, okOr, ok_bind, verifierValue_eq_value, Option.guard]
  dsimp only
  by_cases hdiffers : Differs H alg nodes recomputed a child.2 (child.1 + 1)
  · rw [if_neg (by rwa [constantTimeEq_iff]), if_pos (decide_eq_true hdiffers)]
  · rw [if_pos (by rw [constantTimeEq_iff]; exact not_not.mp hdiffers),
      if_neg (by rwa [decide_eq_true_eq])]

theorem children_positions {ms : List ℕ} (h1 : ∀ m ∈ ms, 1 ≤ m) (h : ℕ) :
    children (ms.map fun m => (m - 1, h + 1)) =
      (ms.flatMap fun m => [2 * m, 2 * m + 1]).map fun m => (m - 1, h) := by
  unfold children
  rw [flatMap_map, map_flatMap]
  refine flatMap_congr fun m hm => ?_
  have := h1 m hm
  have hleft : 2 * (m - 1) + 1 = 2 * m - 1 := by omega
  have hright : 2 * (m - 1) + 2 = 2 * m + 1 - 1 := by omega
  rw [hleft, hright]
  rfl

/-- Dropping elements that contribute nothing. -/
theorem flatMap_filter {α β : Type} {xs : List α} {f : α → List β} {p : α → Bool}
    (h : ∀ x ∈ xs, p x = false → f x = []) : (xs.filter p).flatMap f = xs.flatMap f := by
  induction xs with
  | nil => rfl
  | cons x xs ih =>
    obtain ⟨hx, hxs⟩ := forall_mem_cons.mp h
    cases hp : p x with
    | true => rw [filter_cons_of_pos hp, flatMap_cons, flatMap_cons, ih hxs]
    | false =>
      rw [filter_cons_of_neg (by rw [hp]; exact Bool.false_ne_true), ih hxs,
        flatMap_cons, hx hp, nil_append]

section

variable {S : Set (Hash × Hash)} (hlength : nodes.length = 2 ^ (a + 1) - 1)
  (ht : IsHashed (alg.hashPair H) a (label nodes))
  (hinj : Set.InjOn (Function.uncurry (alg.hashPair H)) S)
  (htS : treePairs a (label nodes) ⊆ S)

include ht hinj htS in
/-- A position that agrees has no bad leaf below. -/
theorem badBelow_of_not_differs {h m : ℕ}
    (hS : ∀ p ∈ valuePairs (alg.hashPair H) (verifierLeaf H alg recomputed (2 ^ a)) h m, p ∈ S)
    (h1 : 1 ≤ m) (hm : 2 ^ h * (m + 1) ≤ 2 ^ (a + 1))
    (hagree : ¬ Differs H alg nodes recomputed a h m) :
    badBelow H alg nodes recomputed a h m = [] := by
  have hleaves := ht.leaf_eq_of_value_eq hinj htS hS h1 hm (not_not.mp hagree)
  apply filter_eq_nil_iff.mpr
  intro j hj
  rw [decide_eq_true_eq]
  exact not_not.mpr (hleaves j hj)

/-- The children of a frontier lie in the tree, and their values hash no other pairs. -/
theorem belowFrontier {ms : List ℕ} {h : ℕ}
    (hms : ∀ m ∈ ms, 1 ≤ m ∧ 2 ^ (h + 1) * (m + 1) ≤ 2 ^ (a + 1))
    (hS : ∀ m ∈ ms, ∀ p ∈ valuePairs (alg.hashPair H) (verifierLeaf H alg recomputed (2 ^ a))
      (h + 1) m, p ∈ S) :
    ∀ j ∈ ms.flatMap (fun m => [2 * m, 2 * m + 1]), (1 ≤ j ∧ 2 ^ h * (j + 1) ≤ 2 ^ (a + 1)) ∧
      ∀ p ∈ valuePairs (alg.hashPair H) (verifierLeaf H alg recomputed (2 ^ a)) h j, p ∈ S := by
  intro j hj
  obtain ⟨m, hm, hchild⟩ := mem_flatMap.mp hj
  obtain ⟨h1, hbound⟩ := hms m hm
  have hpairs := hS m hm
  rw [valuePairs, forall_mem_cons] at hpairs
  have hpow : 2 ^ (h + 1) * (m + 1) = 2 ^ h * (2 * m + 1 + 1) := by ring
  rw [hpow] at hbound
  simp only [mem_cons, not_mem_nil, or_false] at hchild
  rcases hchild with rfl | rfl
  · exact ⟨⟨by omega, (Nat.mul_le_mul_left _ (by omega)).trans hbound⟩,
      fun p hp => hpairs.2 p (mem_append_left _ hp)⟩
  · exact ⟨⟨by omega, hbound⟩, fun p hp => hpairs.2 p (mem_append_right _ hp)⟩

include hlength in
/-- One round follows the children that disagree. -/
theorem collectFound_children {ms : List ℕ} {h : ℕ}
    (hms : ∀ m ∈ ms, 1 ≤ m ∧ 2 ^ (h + 1) * (m + 1) ≤ 2 ^ (a + 1)) :
    collectFound (compareNode H alg nodes (2 ^ a - 1) recomputed)
        (children (ms.map fun m => (m - 1, h + 1))) =
      .ok (((ms.flatMap fun m => [2 * m, 2 * m + 1]).filter
        (Differs H alg nodes recomputed a h ·)).map fun m => (m - 1, h)) := by
  have hpositions : ∀ j ∈ ms.flatMap (fun m => [2 * m, 2 * m + 1]),
      1 ≤ j ∧ j - 1 < nodes.length := by
    intro j hj
    obtain ⟨m, hm, hchild⟩ := mem_flatMap.mp hj
    obtain ⟨h1, hbound⟩ := hms m hm
    have hrow : 2 * (m + 1) ≤ 2 ^ (h + 1) * (m + 1) := by
      rw [pow_succ', mul_assoc]
      exact Nat.mul_le_mul_left 2 (Nat.le_mul_of_pos_left _ (Nat.two_pow_pos h))
    simp only [mem_cons, not_mem_nil, or_false] at hchild
    omega
  rw [children_positions (fun m hm => (hms m hm).1), collectFound_eq
    (g := Option.guard fun child => Differs H alg nodes recomputed a child.2 (child.1 + 1)),
    filterMap_eq_filter, filter_map]
  · congr 2
    refine filter_congr fun j hj => ?_
    rw [Function.comp_apply, Nat.sub_add_cancel (hpositions j hj).1]
  · intro child hchild
    obtain ⟨j, hj, rfl⟩ := mem_map.mp hchild
    exact compareNode_eq (hpositions j hj).2

include hlength ht hinj htS in
/-- A descent names the bad leaves below its frontier. On the leaf row the frontier has to consist
of bad leaves already. -/
theorem descend_spec {ms : List ℕ} {h fuel : ℕ} (hfuel : h < fuel)
    (hms : ∀ m ∈ ms, 1 ≤ m ∧ 2 ^ h * (m + 1) ≤ 2 ^ (a + 1))
    (hS : ∀ m ∈ ms, ∀ p ∈ valuePairs (alg.hashPair H) (verifierLeaf H alg recomputed (2 ^ a)) h m,
      p ∈ S)
    (hbad : h = 0 → ∀ m ∈ ms, Differs H alg nodes recomputed a 0 m) (out : Localization) :
    ∃ found, descend H alg nodes (2 ^ a - 1) recomputed fuel (ms.map fun m => (m - 1, h)) out =
        .ok found ∧
      found.badLeaves =
        out.badLeaves ++ (ms.flatMap (badBelow H alg nodes recomputed a h)).map (· - 2 ^ a) := by
  induction h generalizing ms fuel out with
  | zero =>
    obtain ⟨fuel, rfl⟩ : ∃ k, fuel = k + 1 := ⟨fuel - 1, by omega⟩
    have hall : ms.flatMap (badBelow H alg nodes recomputed a 0) = ms := by
      conv_rhs => rw [← flatMap_singleton' ms]
      refine flatMap_congr fun m hm => ?_
      rw [badBelow, below, filter_singleton, decide_eq_true (hbad rfl m hm), cond_true]
    have hone := Nat.two_pow_pos a
    rw [hall]
    cases ms with
    | nil => exact ⟨out, rfl, (append_nil _).symm⟩
    | cons m ms =>
      have hleaves : ((m :: ms).map fun m => (m - 1, 0)).map (fun entry => entry.1 - (2 ^ a - 1)) =
          (m :: ms).map (· - 2 ^ a) := by
        rw [map_map]
        refine map_congr_left fun j hj => ?_
        rw [Function.comp_apply]
        omega
      rw [← hleaves]
      exact ⟨_, rfl, rfl⟩
  | succ h ih =>
    obtain ⟨fuel, rfl⟩ : ∃ k, fuel = k + 1 := ⟨fuel - 1, by omega⟩
    cases ms with
    | nil => exact ⟨out, rfl, (append_nil _).symm⟩
    | cons m ms =>
      have hbelow := belowFrontier hms hS
      -- a child that agrees takes no bad leaf out of the frontier
      have hkeep : (((m :: ms).flatMap fun m => [2 * m, 2 * m + 1]).filter
            (Differs H alg nodes recomputed a h ·)).flatMap (badBelow H alg nodes recomputed a h) =
          (m :: ms).flatMap (badBelow H alg nodes recomputed a (h + 1)) := by
        rw [flatMap_filter, flatMap_assoc]
        · refine flatMap_congr fun j _ => ?_
          rw [badBelow_succ, flatMap_cons, flatMap_singleton]
        · intro j hj hagree
          obtain ⟨⟨h1, hbound⟩, hpairs⟩ := hbelow j hj
          exact badBelow_of_not_differs ht hinj htS hpairs h1 hbound (of_decide_eq_false hagree)
      have hcons : (m :: ms).map (fun m => (m - 1, h + 1)) =
          (m - 1, h + 1) :: ms.map fun m => (m - 1, h + 1) := rfl
      rw [← hkeep, hcons, descend, ← hcons, collectFound_children hlength hms]
      generalize hnext : ((m :: ms).flatMap fun m => [2 * m, 2 * m + 1]).filter
        (Differs H alg nodes recomputed a h ·) = next at *
      have hmem : ∀ j ∈ next, j ∈ (m :: ms).flatMap (fun m => [2 * m, 2 * m + 1]) ∧
          Differs H alg nodes recomputed a h j := by
        intro j hj
        rw [← hnext, mem_filter, decide_eq_true_eq] at hj
        exact hj
      cases next with
      | nil => exact ⟨_, rfl, (append_nil _).symm⟩
      | cons j next =>
        exact ih (by omega) (fun i hi => (hbelow i (hmem i hi).1).1)
          (fun i hi => (hbelow i (hmem i hi).1).2) (fun h0 i hi => h0 ▸ (hmem i hi).2) _

end

end

/-! ### Exactness -/

section

variable {H : Hashers} {leafHashes : List Hash} {alg : HashAlg}
  {recomputed : Std.TreeMap ℕ Hash} {level : MeshLevel} {coarseRow coarse : ℕ}

/-- Whether the digest recomputed for a leaf is not the one in the tree. A leaf that was not
recomputed counts as null. -/
def IsBad (H : Hashers) (tree : MerkleTree) (recomputed : Std.TreeMap ℕ Hash) (leaf : ℕ) : Prop :=
  recomputed[leaf]?.getD (tree.alg.nullSentinel H) ≠
    tree.nodes.getD (tree.paddedCount - 1 + leaf) default
  deriving Decidable

/-- The bad leaves below a coarse leaf, in order. -/
def badLeaves (H : Hashers) (tree : MerkleTree) (recomputed : Std.TreeMap ℕ Hash)
    (level : MeshLevel) (coarse : ℕ) : List ℕ :=
  (range' (coarse * 2 ^ level.level.toNat) (2 ^ level.level.toNat)).filter
    (IsBad H tree recomputed ·)

/-- The pairs that are hashed to build the tree and to compute the value of a coarse leaf. -/
def localizePairs (H : Hashers) (tree : MerkleTree) (recomputed : Std.TreeMap ℕ Hash)
    (level : MeshLevel) (coarse : ℕ) : List (Hash × Hash) :=
  (range (tree.paddedCount - 1)).map (fun i =>
    (tree.nodes.getD (2 * i + 1) default, tree.nodes.getD (2 * i + 2) default)) ++
  valuePairs (tree.alg.hashPair H) (verifierLeaf H tree.alg recomputed tree.paddedCount)
    level.level.toNat (tree.paddedCount / 2 ^ level.level.toNat + coarse)

/-- The coarse row of a tree of height `a`. -/
theorem MeshLevel.coarseRowLen_two_pow {a : ℕ} (h : level.coarseRowLen (2 ^ a) = .ok coarseRow) :
    level.level.toNat ≤ a ∧ coarseRow = 2 ^ (a - level.level.toNat) := by
  simp only [MeshLevel.coarseRowLen, bind_ok_iff, reject_eq_ok, exists_const, not_lt,
    Except.ok.injEq] at h
  obtain ⟨hle, rfl⟩ := h
  have hlevel : level.level.toNat ≤ a := by
    by_cases ha : a < 64
    · rwa [trailingZeros_two_pow ha] at hle
    · have := level.level_lt
      omega
  exact ⟨hlevel, by rw [Nat.shiftRight_eq_div_pow, Nat.pow_div hlevel (by decide)]⟩

/-- The leaf positions below a node of the row `l` levels up. -/
theorem below_row {a l : ℕ} (hl : l ≤ a) (c : ℕ) :
    below l (2 ^ (a - l) + c) = (range' (c * 2 ^ l) (2 ^ l)).map (2 ^ a + ·) := by
  rw [below_eq_range', mul_add, ← pow_add, Nat.add_sub_cancel' hl, mul_comm _ c, map_add_range']

theorem row_bound {a l c : ℕ} (hl : l ≤ a) (hc : c < 2 ^ (a - l)) :
    2 ^ l * (2 ^ (a - l) + c + 1) ≤ 2 ^ (a + 1) := by
  calc 2 ^ l * (2 ^ (a - l) + c + 1) ≤ 2 ^ l * (2 * 2 ^ (a - l)) :=
        Nat.mul_le_mul_left _ (by omega)
    _ = 2 ^ (a + 1) := by rw [mul_left_comm, ← pow_add, Nat.add_sub_cancel' hl, pow_succ']

/-- The bad positions below a coarse leaf are the bad leaves of its group. -/
theorem map_badBelow {a : ℕ} {tree : MerkleTree} (ha : tree.paddedCount = 2 ^ a)
    (hlevel : level.level.toNat ≤ a) :
    (badBelow H tree.alg tree.nodes recomputed a level.level.toNat
      (2 ^ (a - level.level.toNat) + coarse)).map (· - 2 ^ a) =
      badLeaves H tree recomputed level coarse := by
  have hone := Nat.two_pow_pos a
  rw [badBelow, below_row hlevel, filter_map, map_map, badLeaves]
  have hshift : ((· - 2 ^ a) ∘ (2 ^ a + ·) : ℕ → ℕ) = id := by
    funext i
    exact Nat.add_sub_cancel_left ..
  rw [hshift, map_id]
  refine filter_congr fun i _ => ?_
  have hposition : 2 ^ a + i - 1 = tree.paddedCount - 1 + i := by omega
  rw [Function.comp_apply, decide_eq_decide]
  unfold Differs IsBad
  rw [value, verifierLeaf, Nat.add_sub_cancel_left, label, hposition]

theorem pairwise_badLeaves (tree : MerkleTree) :
    (badLeaves H tree recomputed level coarse).Pairwise fun i j => i ≤ j ∧ i ≠ j := by
  have hsorted : (range' (coarse * 2 ^ level.level.toNat) (2 ^ level.level.toNat)).Pairwise
      (· < ·) := pairwise_lt_range'
  exact (hsorted.imp fun hlt => ⟨hlt.le, hlt.ne⟩).filter _

/-- The pairs of the tree and of the verifier's value are among those listed. -/
theorem mem_localizePairs {a : ℕ} {tree : MerkleTree} (ha : tree.paddedCount = 2 ^ a) :
    treePairs a (label tree.nodes) ⊆ {p | p ∈ localizePairs H tree recomputed level coarse} := by
  intro p hp
  obtain ⟨m, h1, hm, rfl⟩ := hp
  refine mem_append_left _ (mem_map.mpr ⟨m - 1, mem_range.mpr (by omega), ?_⟩)
  have hleft : 2 * (m - 1) + 1 = 2 * m - 1 := by omega
  have hright : 2 * (m - 1) + 2 = 2 * m + 1 - 1 := by omega
  rw [hleft, hright]
  rfl

section

variable {tree : MerkleTree} {a : ℕ} (hpadded : tree.paddedCount = 2 ^ a)
  (hrow : level.coarseRowLen (2 ^ a) = .ok coarseRow) (hcoarse : coarse < coarseRow)

include hpadded hrow hcoarse

/-- The descent starts at the position of the coarse leaf. -/
theorem localizeInGroup_eq_descend : localizeInGroup H tree recomputed level coarse = (do
      let out ← descend H tree.alg tree.nodes (2 ^ a - 1) recomputed (level.level.toNat + 1)
        ([2 ^ (a - level.level.toNat) + coarse].map fun m => (m - 1, level.level.toNat)) ⟨[], 0, 0⟩
      .ok { out with badLeaves := sortDedup (· ≤ ·) out.badLeaves }) := by
  obtain ⟨-, hrowEq⟩ := level.coarseRowLen_two_pow hrow
  have htop : coarseRow - 1 + coarse = 2 ^ (a - level.level.toNat) + coarse - 1 := by omega
  rw [localizeInGroup, MeshLevel.coarseNodeIndex, hpadded, hrow, ok_bind,
    reject_bind (not_le.mpr hcoarse), ok_bind, htop]
  rfl

/-- On level 0 the frontier is a leaf, and it is named at once. -/
theorem localizeInGroup_level_zero (hzero : level.level = 0) :
    localizeInGroup H tree recomputed level coarse = .ok ⟨[coarse], 0, 0⟩ := by
  have hlevel : level.level.toNat = 0 := by rw [hzero]; rfl
  have hone := Nat.two_pow_pos a
  have hnamed : 2 ^ (a - 0) + coarse - 1 - (2 ^ a - 1) = coarse := by
    rw [Nat.sub_zero]
    omega
  have hsingle : sortDedup (· ≤ ·) [coarse] = [coarse] :=
    sortDedup_of_pairwise (pairwise_singleton _ _)
  rw [localizeInGroup_eq_descend hpadded hrow hcoarse, hlevel, map_singleton, descend,
    if_pos rfl, ok_bind, map_singleton, hnamed, nil_append, hsingle]

/-- Above level 0 the bad leaves of the group are named. -/
theorem localizeInGroup_above (hhashed : IsHashed (tree.alg.hashPair H) a (label tree.nodes))
    (hinj : ∀ p ∈ localizePairs H tree recomputed level coarse,
      ∀ q ∈ localizePairs H tree recomputed level coarse,
        tree.alg.hashPair H p.1 p.2 = tree.alg.hashPair H q.1 q.2 → p = q)
    (hzero : level.level ≠ 0) :
    ∃ out, localizeInGroup H tree recomputed level coarse = .ok out ∧
      out.badLeaves = badLeaves H tree recomputed level coarse := by
  obtain ⟨hlevel, hrowEq⟩ := level.coarseRowLen_two_pow hrow
  have hpositive : level.level.toNat ≠ 0 := fun h0 => hzero (UInt32.toNat_inj.mp h0)
  have hlength : tree.nodes.length = 2 ^ (a + 1) - 1 := by
    rw [tree.length_nodes, hpadded, pow_succ']
  have hvalue : ∀ p ∈ valuePairs (tree.alg.hashPair H)
      (verifierLeaf H tree.alg recomputed (2 ^ a)) level.level.toNat
        (2 ^ (a - level.level.toNat) + coarse),
      p ∈ localizePairs H tree recomputed level coarse := by
    intro p hp
    refine mem_append_right _ ?_
    rwa [hpadded, Nat.pow_div hlevel (by decide)]
  obtain ⟨found, hfound, hnamed⟩ := descend_spec (a := a)
    (S := {p | p ∈ localizePairs H tree recomputed level coarse}) hlength hhashed
    (fun p hp q hq heq => hinj p hp q hq heq) (mem_localizePairs hpadded)
    (lt_add_one level.level.toNat)
    (forall_mem_singleton.mpr ⟨by omega, row_bound hlevel (hrowEq ▸ hcoarse)⟩)
    (forall_mem_singleton.mpr hvalue)
    (fun h0 => absurd h0 hpositive) ⟨[], 0, 0⟩
  rw [flatMap_singleton, map_badBelow hpadded hlevel, nil_append] at hnamed
  rw [localizeInGroup_eq_descend hpadded hrow hcoarse, hfound]
  refine ⟨_, rfl, ?_⟩
  rw [hnamed, sortDedup_of_pairwise (pairwise_badLeaves tree)]

end

theorem badLeaves_level_zero (tree : MerkleTree) (hzero : level.level = 0) :
    badLeaves H tree recomputed level coarse = [coarse] ↔ IsBad H tree recomputed coarse := by
  have hlevel : level.level.toNat = 0 := by rw [hzero]; rfl
  rw [badLeaves, hlevel, pow_zero, mul_one, range'_one, filter_eq_self,
    forall_mem_singleton, decide_eq_true_eq]

/-- If hashing pairs is injective on the pairs that occur, the leaves that are named are exactly
the bad leaves of the group, except on level 0, where the one leaf of the group is named without
having been compared. -/
theorem localizeInGroup_exact_iff
    (hrow : level.coarseRowLen (MerkleTree.fromLeafHashes H leafHashes alg).paddedCount =
      .ok coarseRow) (hcoarse : coarse < coarseRow)
    (hinj : ∀ p ∈ localizePairs H (.fromLeafHashes H leafHashes alg) recomputed level coarse,
      ∀ q ∈ localizePairs H (.fromLeafHashes H leafHashes alg) recomputed level coarse,
        alg.hashPair H p.1 p.2 = alg.hashPair H q.1 q.2 → p = q) :
    (∃ out, localizeInGroup H (.fromLeafHashes H leafHashes alg) recomputed level coarse =
        .ok out ∧
      out.badLeaves = badLeaves H (.fromLeafHashes H leafHashes alg) recomputed level coarse) ↔
    level.level ≠ 0 ∨ IsBad H (.fromLeafHashes H leafHashes alg) recomputed coarse := by
  obtain ⟨a, ha⟩ := exists_nextPowerOfTwo leafHashes.length
  have hpadded : (MerkleTree.fromLeafHashes H leafHashes alg).paddedCount = 2 ^ a := by
    rw [fromLeafHashes_paddedCount, ha]
  have hhashed := @fromLeafHashes_isHashed H leafHashes alg a ha
  have halg := fromLeafHashes_alg H leafHashes alg
  generalize MerkleTree.fromLeafHashes H leafHashes alg = tree at *
  subst halg
  rw [hpadded] at hrow
  by_cases hzero : level.level = 0
  · rw [localizeInGroup_level_zero hpadded hrow hcoarse hzero]
    constructor
    · intro ⟨out, hout, hexact⟩
      rw [← Except.ok.inj hout] at hexact
      exact .inr ((badLeaves_level_zero tree hzero).mp hexact.symm)
    · intro hcondition
      have hbad := hcondition.resolve_left (not_not.mpr hzero)
      exact ⟨_, rfl, ((badLeaves_level_zero tree hzero).mpr hbad).symm⟩
  · exact iff_of_true (localizeInGroup_above hpadded hrow hcoarse hhashed hinj hzero) (.inl hzero)

/-- Two leaves of which the second was altered, one level up, on SHA-256. -/
theorem localizeInGroup_exact_secondLeaf :
    ∃ out, localizeInGroup sha256Only
        (.fromLeafHashes sha256Only [zeroHash, zeroHash] .sha256)
        (.ofList [(0, zeroHash), (1, sha256 [])]) ⟨1, by decide⟩ 0 = .ok out ∧
      out.badLeaves = badLeaves sha256Only
        (.fromLeafHashes sha256Only [zeroHash, zeroHash] .sha256)
        (.ofList [(0, zeroHash), (1, sha256 [])]) ⟨1, by decide⟩ 0 := by
  have hrow : (⟨1, by decide⟩ : MeshLevel).coarseRowLen
      (MerkleTree.fromLeafHashes sha256Only [zeroHash, zeroHash] .sha256).paddedCount = .ok 1 := by
    decide +kernel
  refine (localizeInGroup_exact_iff hrow Nat.one_pos ?_).mpr (.inl (by decide))
  decide +kernel

/-- A leaf that agrees with the tree is named on level 0. -/
theorem localizeInGroup_names_good_leaf :
    localizeInGroup sha256Only (.fromLeafHashes sha256Only [zeroHash] .sha256)
        (.ofList [(0, zeroHash)]) ⟨0, by decide⟩ 0 = .ok ⟨[0], 0, 0⟩ ∧
      ¬ IsBad sha256Only (.fromLeafHashes sha256Only [zeroHash] .sha256)
        (.ofList [(0, zeroHash)]) 0 := by
  decide +kernel

end

end ClawHdf5.Subset
