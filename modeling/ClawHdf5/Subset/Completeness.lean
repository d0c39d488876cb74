import ClawHdf5.Subset.Soundness

/-!
# Completeness of subset proofs

A proof extracted from an honest tree is accepted. For sibling paths every leaf walks up the
tree's own labels. For pruned proofs the verifier rebuilds exactly the nodes the prover
counted as known, level by level, and finds every other sibling on the wire.

A pruned proof of no chunk at all leaves the verifier without a node to start from, and it
rejects; so completeness holds for all but these.
-/

namespace ClawHdf5.Subset

open Fallible LevelOrder MachineInt Merkle List MerkleTree

variable {H : Hashers} {alg : HashAlg} {nodes : List Hash} {a k fuel : ℕ} {m : NodeMap}
  {node leafIdx n : UInt64} {leaves : List (UInt64 × Hash)}

/-! ### Levels -/

/-- The node is on level `k`; the root is on level 0. -/
def AtDepth (k : ℕ) (node : UInt64) : Prop :=
  2 ^ k ≤ node.toNat + 1 ∧ node.toNat + 1 < 2 ^ (k + 1)

namespace AtDepth

theorem eq_zero (h : AtDepth 0 node) : node = 0 := by
  obtain ⟨-, h⟩ := h
  apply UInt64.toNat_inj.mp
  show node.toNat = 0
  omega

theorem ne_zero (h : AtDepth (k + 1) node) : node ≠ 0 := by
  rintro rfl
  have hone := Nat.two_pow_pos k
  have hle : 2 ^ (k + 1) ≤ 0 + 1 := h.1
  omega

section

variable (h : AtDepth k node) (hne : node ≠ 0)
include h hne

theorem parent : AtDepth (k - 1) (parentIdx node) := by
  rw [AtDepth, parentIdx_position hne]
  cases k with
  | zero => exact absurd h.eq_zero hne
  | succ k =>
    obtain ⟨hlo, hhi⟩ := h
    rw [Nat.add_sub_cancel]
    omega

omit hne in
/-- A node of a level is a node of every tree that has the level. -/
theorem lt (hk : k ≤ a) : node.toNat + 1 < 2 ^ (a + 1) :=
  h.2.trans_le (Nat.pow_le_pow_right two_pos (Nat.succ_le_succ hk))

/-- Above level 64 the sibling's index does not wrap. -/
theorem sibling_position (hk : k ≤ 63) :
    (siblingIdx node).toNat + 1 = sibling (node.toNat + 1) := by
  have hpos := toNat_pos hne
  have hlt := h.lt hk
  unfold siblingIdx sibling
  by_cases hodd : node % 2 = 1
  · rw [if_pos hodd, if_pos (odd_iff_even_position.mp hodd), toNat_add_of_lt]
    · rfl
    · rw [UInt64.toNat_one]
      omega
  · rw [if_neg hodd, if_neg (fun h => hodd (odd_iff_even_position.mpr h)), toNat_sub_one hne]
    omega

theorem sibling (hk : k ≤ 63) : AtDepth k (siblingIdx node) := by
  rw [AtDepth, h.sibling_position hne hk, LevelOrder.sibling]
  cases k with
  | zero => exact absurd h.eq_zero hne
  | succ k =>
    obtain ⟨hlo, hhi⟩ := h
    split_ifs <;> omega

end

end AtDepth

/-! ### Honest node maps -/

/-- Every digest of the map is the label of its node. -/
def Honest (nodes : List Hash) (m : NodeMap) : Prop :=
  ∀ (node : UInt64) (v : Hash), m[node]? = some v → v = label nodes (node.toNat + 1)

theorem Honest.empty : Honest nodes ∅ := fun node v h => absurd h (by simp)

theorem Honest.insert (h : Honest nodes m) :
    Honest nodes (m.insert node (label nodes (node.toNat + 1))) := by
  intro n v hv
  rw [Std.TreeMap.getElem?_insert] at hv
  split_ifs at hv with heq
  · rw [Std.compare_eq_iff_eq] at heq
    exact heq ▸ (Option.some.inj hv).symm
  · exact h n v hv

theorem Honest.insertIfNew (h : Honest nodes m) :
    Honest nodes (m.insertIfNew node (label nodes (node.toNat + 1))) := by
  intro n v hv
  rw [Std.TreeMap.getElem?_insertIfNew] at hv
  split_ifs at hv with heq
  · rw [Std.compare_eq_iff_eq] at heq
    exact heq.1 ▸ (Option.some.inj hv).symm
  · exact h n v hv

theorem Honest.getElem? (h : Honest nodes m) (hin : m.contains node) :
    m[node]? = some (label nodes (node.toNat + 1)) := by
  obtain ⟨v, hv⟩ := Option.isSome_iff_exists.mp
    ((Std.TreeMap.isSome_getElem?_eq_contains).trans hin)
  rw [hv, h node v hv]

variable (ht : IsHashed (alg.hashPair H) a (label nodes)) (ha : a ≤ 63)
  (hlength : 2 ^ (a + 1) - 1 ≤ nodes.length)

include ht ha in
/-- The parent's digest from a node's and its sibling's labels. -/
theorem hashParent_label (hdepth : AtDepth (k + 1) node) (hk : k < a) :
    hashParent H alg (node % 2 = 1) (label nodes (node.toNat + 1))
        (label nodes ((siblingIdx node).toNat + 1)) =
      label nodes ((parentIdx node).toNat + 1) := by
  have hlow : 2 ≤ node.toNat + 1 := Nat.succ_le_succ (toNat_pos hdepth.ne_zero)
  have hhigh : (node.toNat + 1) / 2 < 2 ^ a := by
    have hlt := hdepth.lt hk
    omega
  rw [hdepth.sibling_position hdepth.ne_zero (by omega), parentIdx_position hdepth.ne_zero,
    ht.parent hlow hhigh, hashParent, arrangePair_eq_arrange]
  rfl

/-! ### Sibling paths -/

/-- The map has the siblings of a node and of its ancestors below the root. -/
def HasPath (m : NodeMap) : ℕ → UInt64 → Prop
  | 0, _ => True
  | k + 1, node => m.contains (siblingIdx node) ∧ HasPath m k (parentIdx node)

theorem HasPath.mono {m' : NodeMap} (h : ∀ n, m.contains n → m'.contains n)
    (hpath : HasPath m k node) : HasPath m' k node := by
  induction k generalizing node with
  | zero => trivial
  | succ k ih => exact ⟨h _ hpath.1, ih hpath.2⟩

section

variable (hidx : leafIdx.toNat < 2 ^ a)
include ha hidx

theorem toNat_leafNode : (leafNode (2 ^ a) leafIdx).toNat + 1 = 2 ^ a + leafIdx.toNat := by
  have hpow : 2 ^ a ≤ 2 ^ 63 := Nat.pow_le_pow_right two_pos ha
  have hword : (UInt64.ofNat (2 ^ a - 1)).toNat = 2 ^ a - 1 :=
    UInt64.toNat_ofNat_of_lt' (by show _ < 2 ^ 64; omega)
  rw [leafNode, toNat_add_of_lt] <;> rw [hword] <;> omega

theorem le_toNat_leafNode : a ≤ (leafNode (2 ^ a) leafIdx).toNat := by
  have hlt := Nat.lt_two_pow_self (n := a)
  have hposition := toNat_leafNode ha hidx
  omega

theorem atDepth_leafNode : AtDepth a (leafNode (2 ^ a) leafIdx) := by
  rw [AtDepth, toNat_leafNode ha hidx]
  omega

end

include ht ha in
/-- Through the labels of a hashed tree a walk reaches the label of the root. -/
theorem walkToRoot_honest (hm : Honest nodes m) (hk : k ≤ a) (hfuel : k ≤ fuel)
    (hdepth : AtDepth k node) (hpath : HasPath m k node)
    (hidx : node.toNat + 1 = 2 ^ k + leafIdx.toNat) :
    walkToRoot H alg m fuel node leafIdx (label nodes (node.toNat + 1)) = .ok (label nodes 1) := by
  induction k generalizing fuel node leafIdx with
  | zero =>
    obtain rfl := hdepth.eq_zero
    cases fuel <;> rfl
  | succ k ih =>
    obtain ⟨fuel, rfl⟩ : ∃ f, fuel = f + 1 := ⟨fuel - 1, by omega⟩
    have hnode : node > 0 := UInt64.lt_iff_toNat_lt.mpr (toNat_pos hdepth.ne_zero)
    -- the side is read off the leaf index, which has the parity of the position
    have hside : decide (leafIdx % 2 = 0) = decide (node % 2 = 1) := by
      have heven : leafIdx % 2 = 0 ↔ leafIdx.toNat % 2 = 0 := by
        rw [← UInt64.toNat_inj]
        rfl
      rw [decide_eq_decide, heven, odd_iff_even_position]
      omega
    have hhalf : (parentIdx node).toNat + 1 = 2 ^ k + (leafIdx / 2).toNat := by
      rw [parentIdx_position hdepth.ne_zero]
      show _ = 2 ^ k + leafIdx.toNat / 2
      omega
    rw [walkToRoot, if_pos hnode, hm.getElem? hpath.1, okOr, ok_bind, hside,
      hashParent_label ht ha hdepth (by omega)]
    exact ih (by omega) (by omega) (hdepth.parent hdepth.ne_zero) hpath.2 hhalf

include hlength in
theorem getElem?_nodes (hnode : node.toNat + 1 < 2 ^ (a + 1)) :
    nodes[node.toNat]? = some (label nodes (node.toNat + 1)) := by
  have hlt : node.toNat < nodes.length := by omega
  rw [label, Nat.add_sub_cancel, getElem?_eq_getElem hlt, getD_eq_getElem _ _ hlt]

include ha hlength

/-- Recording a path succeeds, keeps what was recorded and adds the path. -/
theorem addPath_honest (leafIdx : UInt64) (hm : Honest nodes m) (hk : k ≤ a) (hfuel : k ≤ fuel)
    (hdepth : AtDepth k node) :
    ∃ m', addPath nodes leafIdx fuel node m = .ok m' ∧ Honest nodes m' ∧
      (∀ n, m.contains n → m'.contains n) ∧ HasPath m' k node := by
  induction k generalizing fuel node m with
  | zero =>
    obtain rfl := hdepth.eq_zero
    exact ⟨m, by cases fuel <;> rfl, hm, fun _ h => h, trivial⟩
  | succ k ih =>
    obtain ⟨fuel, rfl⟩ : ∃ f, fuel = f + 1 := ⟨fuel - 1, by omega⟩
    have hnode : node > 0 := UInt64.lt_iff_toNat_lt.mpr (toNat_pos hdepth.ne_zero)
    have hread := getElem?_nodes hlength ((hdepth.sibling hdepth.ne_zero (hk.trans ha)).lt hk)
    have hinsert : Honest nodes (m.insertIfNew (siblingIdx node)
        (label nodes ((siblingIdx node).toNat + 1))) := hm.insertIfNew
    obtain ⟨m', hm', hhonest, hmono, hpath⟩ := ih hinsert (Nat.le_of_succ_le hk)
      (Nat.le_of_succ_le_succ hfuel) (hdepth.parent hdepth.ne_zero)
    refine ⟨m', ?_, hhonest, fun n hn => hmono n ?_, hmono _ ?_, hpath⟩
    · rw [addPath, if_pos hnode, hread]
      exact hm'
    · rw [Std.TreeMap.contains_insertIfNew, hn, Bool.or_true]
    · exact Std.TreeMap.contains_insertIfNew_self

theorem addPaths_honest (hm : Honest nodes m) {indices : List UInt64}
    (hidx : ∀ i ∈ indices, i.toNat < 2 ^ a) :
    ∃ m', addPaths nodes (2 ^ a) indices m = .ok m' ∧ Honest nodes m' ∧
      (∀ n, m.contains n → m'.contains n) ∧
      ∀ i ∈ indices, HasPath m' a (leafNode (2 ^ a) i) := by
  induction indices generalizing m with
  | nil => exact ⟨m, rfl, hm, fun _ h => h, fun _ h => absurd h not_mem_nil⟩
  | cons i indices ih =>
    obtain ⟨hi, hindices⟩ := forall_mem_cons.mp hidx
    obtain ⟨m₁, hm₁, hhonest₁, hmono₁, hpath₁⟩ := addPath_honest ha hlength i hm le_rfl
      (le_toNat_leafNode ha hi) (atDepth_leafNode ha hi)
    obtain ⟨m₂, hm₂, hhonest₂, hmono₂, hpath₂⟩ := ih hhonest₁ hindices
    refine ⟨m₂, ?_, hhonest₂, fun n hn => hmono₂ n (hmono₁ n hn), ?_⟩
    · rw [addPaths, hm₁, ok_bind, hm₂]
    · exact forall_mem_cons.mpr ⟨hpath₁.mono hmono₂, hpath₂⟩

omit hlength

include ht in
/-- With honest siblings for every leaf, the check of sibling paths passes. -/
theorem checkPaths_honest (hm : Honest nodes m)
    (hleaves : ∀ leaf ∈ leaves, leaf.1.toNat < 2 ^ a ∧ leaf.2 = label nodes (2 ^ a + leaf.1.toNat) ∧
      HasPath m a (leafNode (2 ^ a) leaf.1)) :
    checkPaths H alg (label nodes 1) m (2 ^ a) leaves = .ok true := by
  induction leaves with
  | nil => rfl
  | cons leaf leaves ih =>
    obtain ⟨⟨hidx, hlabel, hpath⟩, hrest⟩ := forall_mem_cons.mp hleaves
    have hposition := toNat_leafNode ha hidx
    have hwalk := walkToRoot_honest ht ha hm le_rfl (le_toNat_leafNode ha hidx)
      (atDepth_leafNode ha hidx) hpath hposition
    rw [hposition, ← hlabel] at hwalk
    rw [checkPaths]
    simp only [hwalk, ok_bind, constantTimeEq_iff, reject]
    exact ih hrest

omit ha

/-! ### Pruned proofs: the prover -/

section

variable {known transmit : Std.TreeSet UInt64} {levels : ℕ}

/-- What one level of pruning transmits, and which parents it makes known. -/
theorem contains_foldl_pruneNode {entries : List UInt64}
    {acc : Std.TreeSet UInt64 × Std.TreeSet UInt64} :
    ((entries.foldl (pruneNode known) acc).1.contains n ↔ acc.1.contains n ∨
        ∃ node ∈ entries, node ≠ 0 ∧ ¬ known.contains (siblingIdx node) ∧ siblingIdx node = n) ∧
      ((entries.foldl (pruneNode known) acc).2.contains n ↔ acc.2.contains n ∨
        ∃ node ∈ entries, node ≠ 0 ∧ parentIdx node = n) := by
  induction entries generalizing acc with
  | nil => simp
  | cons node entries ih =>
    rw [foldl_cons, ih.1, ih.2]
    simp only [exists_mem_cons_iff]
    by_cases hzero : node = 0
    · simp [pruneNode, hzero]
    · by_cases hin : known.contains (siblingIdx node)
      · simp [pruneNode, hzero, hin, or_assoc, or_comm]
      · simp [pruneNode, hzero, hin, or_assoc, or_comm]

/-- From the root on nothing is transmitted. -/
theorem contains_pruneLevels_root (h : ∀ n, known.contains n → n = 0) :
    (pruneLevels levels known transmit).contains n ↔ transmit.contains n := by
  induction levels generalizing known transmit with
  | zero => rfl
  | succ levels ih =>
    have hzero : ∀ node ∈ known.toList, node = 0 := fun node hnode =>
      h node (Std.TreeSet.mem_toList.mp hnode)
    rw [pruneLevels]
    split_ifs
    · rfl
    · rw [ih, contains_foldl_pruneNode.1]
      · exact or_iff_left fun ⟨node, hnode, hne, _⟩ => hne (hzero node hnode)
      · intro n hn
        rcases contains_foldl_pruneNode.2.mp hn with hn | ⟨node, hnode, hne, -⟩
        · simp at hn
        · exact absurd (hzero node hnode) hne

end

/-! ### Pruned proofs: the frontier -/

section

variable {D : Set ℕ} {f g : UInt64 → Bool} {indices : List UInt64}

/-- The known nodes are those of level `k` above the leaves of `D`. -/
structure KnowsLevel (D : Set ℕ) (k : ℕ) (known : UInt64 → Bool) : Prop where
  iff (n : UInt64) : known n ↔ AtDepth k n ∧ Reached D (n.toNat + 1)
  nonempty : ∃ n, known n

theorem KnowsLevel.atDepth (h : KnowsLevel D k f) (hn : f n) : AtDepth k n := ((h.iff n).mp hn).1

theorem exists_node {p : ℕ} (hp : p ≠ 0) (hlt : p < 2 ^ 64) : ∃ n : UInt64, n.toNat + 1 = p := by
  refine ⟨.ofNat (p - 1), ?_⟩
  rw [UInt64.toNat_ofNat_of_lt' (by show _ < 2 ^ 64; omega)]
  omega

section

variable (ha : a ≤ 63) (hD : ∀ x ∈ D, 2 ^ a ≤ x) (hk : k < a)
include ha hD hk

theorem exists_reached_child (hn : AtDepth k n) (h : Reached D (n.toNat + 1)) :
    ∃ c, AtDepth (k + 1) c ∧ Reached D (c.toNat + 1) ∧ parentIdx c = n := by
  have hpow : 2 ^ (k + 1) ≤ 2 ^ a := Nat.pow_le_pow_right two_pos hk
  have hword : 2 ^ a ≤ 2 ^ 63 := Nat.pow_le_pow_right two_pos ha
  obtain ⟨hlo, hhi⟩ := hn
  obtain ⟨p, hreached, hhalf⟩ := h.child hD (hhi.trans_le hpow)
  obtain ⟨c, rfl⟩ := exists_node (p := p) (by omega) (by omega)
  have hdepth : AtDepth (k + 1) c := by
    rw [AtDepth]
    omega
  have hparent := parentIdx_position hdepth.ne_zero
  exact ⟨c, hdepth, hreached, UInt64.toNat_inj.mp (by omega)⟩

theorem KnowsLevel.parents (h : KnowsLevel D (k + 1) f)
    (hg : ∀ n, g n ↔ ∃ node, f node ∧ node ≠ 0 ∧ parentIdx node = n) : KnowsLevel D k g := by
  refine ⟨fun n => (hg n).trans ⟨?_, ?_⟩, ?_⟩
  · rintro ⟨node, hnode, hne, rfl⟩
    obtain ⟨hd, hr⟩ := (h.iff node).mp hnode
    rw [parentIdx_position hne]
    exact ⟨hd.parent hne, hr.of_under ⟨1, rfl⟩⟩
  · rintro ⟨hd, hr⟩
    obtain ⟨c, hc, hr, hparent⟩ := exists_reached_child ha hD hk hd hr
    exact ⟨c, (h.iff c).mpr ⟨hc, hr⟩, hc.ne_zero, hparent⟩
  · obtain ⟨n, hn⟩ := h.nonempty
    exact ⟨_, (hg _).mpr ⟨n, hn, (h.atDepth hn).ne_zero, rfl⟩⟩

/-- One more level adds the unknown siblings of its known nodes to the frontier. -/
theorem KnowsLevel.frontier_iff (h : KnowsLevel D (k + 1) f) :
    Frontier (k + 1) D (n.toNat + 1) ↔ (∃ node, f node ∧ node ≠ 0 ∧ ¬ f (siblingIdx node) ∧
      siblingIdx node = n) ∨ Frontier k D (n.toNat + 1) := by
  constructor
  · rintro ⟨hlt, hnot, hhalf⟩
    by_cases hlow : n.toNat + 1 < 2 ^ (k + 1)
    · exact .inr ⟨hlow, hnot, hhalf⟩
    · have hd : AtDepth (k + 1) n := ⟨not_lt.mp hlow, hlt⟩
      rw [← parentIdx_position hd.ne_zero] at hhalf
      obtain ⟨c, hc, hr, hparent⟩ :=
        exists_reached_child ha hD hk (hd.parent hd.ne_zero) hhalf
      have hsib := (siblingIdx_of_parentIdx_eq hc.ne_zero hd.ne_zero
        (fun heq => hnot (heq ▸ hr)) hparent).1
      exact .inl ⟨c, (h.iff c).mpr ⟨hc, hr⟩, hc.ne_zero,
        fun hin => hnot ((h.iff _).mp (hsib ▸ hin)).2, hsib⟩
  · rintro (⟨node, hnode, hne, hout, rfl⟩ | ⟨hlt, hfrontier⟩)
    · obtain ⟨hd, hr⟩ := (h.iff node).mp hnode
      have hs := hd.sibling hne (hk.trans_le ha)
      refine ⟨hs.2, fun hin => hout ((h.iff _).mpr ⟨hs, hin⟩), hr.of_under ⟨1, ?_⟩⟩
      rw [hd.sibling_position hne (hk.trans_le ha), LevelOrder.sibling]
      split_ifs <;> omega
    · exact ⟨by omega, hfrontier⟩

omit hk

/-- From a known level on the walk transmits the frontier. -/
theorem contains_pruneLevels {known transmit : Std.TreeSet UInt64} {levels : ℕ} (hk : k ≤ a)
    (hlevels : k ≤ levels) (h : KnowsLevel D k known.contains) :
    (pruneLevels levels known transmit).contains n ↔
      transmit.contains n ∨ Frontier k D (n.toNat + 1) := by
  induction k generalizing levels known transmit with
  | zero =>
    rw [contains_pruneLevels_root fun n hn => (h.atDepth hn).eq_zero]
    refine (or_iff_left fun hfrontier => hfrontier.2.1 ?_).symm
    obtain ⟨m, hm⟩ := h.nonempty
    obtain ⟨⟨-, hlt⟩, hreached⟩ := (h.iff m).mp hm
    have hlt' := hfrontier.1
    rwa [show n.toNat = m.toNat by omega]
  | succ k ih =>
    obtain ⟨levels, rfl⟩ : ∃ l, levels = l + 1 := ⟨levels - 1, by omega⟩
    have hstop : ¬ (known.isEmpty ∨ (known.size = 1 ∧ known.contains 0)) := by
      rintro (hempty | ⟨-, hzero⟩)
      · obtain ⟨n, hn⟩ := h.nonempty
        exact Bool.noConfusion
          (hn.symm.trans (Std.TreeSet.isEmpty_iff_forall_contains.mp hempty n))
      · exact (h.atDepth hzero).ne_zero rfl
    rw [pruneLevels, if_neg hstop]
    refine (ih (Nat.le_of_succ_le hk) (Nat.le_of_succ_le_succ hlevels)
      (h.parents ha hD hk fun n => ?_)).trans ?_
    · rw [contains_foldl_pruneNode.2]
      simp
    · rw [contains_foldl_pruneNode.1, h.frontier_iff ha hD hk, or_assoc]
      simp

end

/-- The node is in the subtree of `root`. -/
def InSubtree (root node : UInt64) : Prop := Under (root.toNat + 1) (node.toNat + 1)

/-- The positions of leaves in a tree of height `a`. -/
def leafPositions (a : ℕ) (indices : List UInt64) : Set ℕ :=
  {p | ∃ n ∈ indices.map (leafNode (2 ^ a)), n.toNat + 1 = p}

section

variable (ha : a ≤ 63) (hidx : ∀ l ∈ indices, l.toNat < 2 ^ a) (hne : indices ≠ [])
include ha hidx

theorem atDepth_of_mem_map (h : n ∈ indices.map (leafNode (2 ^ a))) : AtDepth a n := by
  obtain ⟨l, hl, rfl⟩ := mem_map.mp h
  exact atDepth_leafNode ha (hidx l hl)

theorem le_of_mem_leafPositions {p : ℕ} (h : p ∈ leafPositions a indices) : 2 ^ a ≤ p := by
  obtain ⟨n, hn, rfl⟩ := h
  exact (atDepth_of_mem_map ha hidx hn).1

/-- In the leaf row only the delivered leaves are reached. -/
theorem reached_leafPositions_iff (hn : AtDepth a n) :
    Reached (leafPositions a indices) (n.toNat + 1) ↔ n ∈ indices.map (leafNode (2 ^ a)) := by
  rw [reached_iff_mem (a := a) ?_ hn.1]
  · constructor
    · rintro ⟨m, hm, heq⟩
      exact UInt64.toNat_inj.mp (Nat.succ.inj heq) ▸ hm
    · exact fun h => ⟨n, h, rfl⟩
  · rintro _ ⟨m, hm, rfl⟩
    exact (atDepth_of_mem_map ha hidx hm).2

include hne

theorem knowsLevel_leaves (hf : ∀ n, f n ↔ n ∈ indices.map (leafNode (2 ^ a))) :
    KnowsLevel (leafPositions a indices) a f := by
  refine ⟨fun n => ?_, ?_⟩
  · rw [hf, ← and_iff_right_of_imp (atDepth_of_mem_map ha hidx)]
    exact and_congr_right fun hn => (reached_leafPositions_iff ha hidx hn).symm
  · obtain ⟨l, hl⟩ := exists_mem_of_ne_nil indices hne
    exact ⟨_, (hf _).mpr (mem_map_of_mem hl)⟩

/-- The nodes of a pruned proof are the frontier of its leaves. -/
theorem mem_prunedSiblingIndices : n ∈ prunedSiblingIndices (2 ^ a) indices ↔
    Frontier a (leafPositions a indices) (n.toNat + 1) := by
  rw [← Std.TreeSet.contains_iff_mem, prunedSiblingIndices, contains_pruneLevels ha
    (fun _ => le_of_mem_leafPositions ha hidx) le_rfl (ha.trans (by decide))
    (knowsLevel_leaves ha hidx hne fun n => by rw [Std.TreeSet.contains_ofList, contains_iff_mem])]
  simp

/-- The transmitted nodes are not nested, none of them is above a delivered leaf, and every
other leaf is under exactly one of them. -/
theorem prunedSiblingIndices_partition :
    (∀ l : UInt64, l.toNat < 2 ^ a →
      if l ∈ indices then
        ∀ n ∈ prunedSiblingIndices (2 ^ a) indices, ¬ InSubtree n (leafNode (2 ^ a) l)
      else ∃! n, n ∈ prunedSiblingIndices (2 ^ a) indices ∧ InSubtree n (leafNode (2 ^ a) l)) ∧
    ∀ n ∈ prunedSiblingIndices (2 ^ a) indices, ∀ n' ∈ prunedSiblingIndices (2 ^ a) indices,
      InSubtree n n' → n = n' := by
  simp only [mem_prunedSiblingIndices ha hidx hne]
  refine ⟨fun l hl => ?_, fun n hn n' hn' hunder => ?_⟩
  · have hnode := atDepth_leafNode ha hl
    split_ifs with hin
    · exact fun n hn hunder => hn.2.1 ⟨_, ⟨_, mem_map_of_mem hin, rfl⟩, hunder⟩
    · have hout : ¬ Reached (leafPositions a indices) ((leafNode (2 ^ a) l).toNat + 1) := by
        rw [reached_leafPositions_iff ha hidx hnode]
        exact fun h => hin ((mem_map_of_injective fun _ _ => (UInt64.add_right_inj _).mp).mp h)
      obtain ⟨l', hl'⟩ := exists_mem_of_ne_nil indices hne
      have hsome : ∃ x ∈ leafPositions a indices, x < 2 ^ (a + 1) :=
        ⟨_, ⟨_, mem_map_of_mem hl', rfl⟩, (atDepth_leafNode ha (hidx l' hl')).2⟩
      obtain ⟨p, ⟨hp, hunder⟩, hunique⟩ := existsUnique_frontier hsome hnode.2 hout
      have hp0 : p ≠ 0 := by
        rintro rfl
        exact hp.2.1 hp.2.2
      obtain ⟨n, rfl⟩ := exists_node hp0
        (hp.1.trans_le (Nat.pow_le_pow_right two_pos (Nat.succ_le_succ ha)))
      exact ⟨n, ⟨hp, hunder⟩, fun m hm => UInt64.toNat_inj.mp (Nat.succ.inj (hunique _ hm))⟩
  · exact UInt64.toNat_inj.mp (Nat.succ.inj (hn.eq_of_under hn' hunder))

end

end

theorem prunedSiblingIndices_partition_eightLeaves :
    (∀ n ∈ prunedSiblingIndices (2 ^ 3) [1, 4, 5], ¬ InSubtree n (leafNode (2 ^ 3) 4)) ∧
      ∃! n, n ∈ prunedSiblingIndices (2 ^ 3) [1, 4, 5] ∧ InSubtree n (leafNode (2 ^ 3) 6) :=
  have h := (@prunedSiblingIndices_partition 3 (by decide) [1, 4, 5] (by simp) (by simp)).1
  ⟨h 4 (by decide), h 6 (by decide)⟩

/-! ### Pruned proofs: the verifier -/

section

variable {levels : ℕ} {known next proofNodes : NodeMap}

include ht ha in
/-- Rebuilding a level of honest nodes, each of which finds its sibling, succeeds and makes
exactly their parents known. -/
theorem rebuildLevel_honest (hk : k < a) (hnext : Honest nodes next)
    {entries : List (UInt64 × Hash)}
    (hentries : ∀ e ∈ entries, AtDepth (k + 1) e.1 ∧ e.2 = label nodes (e.1.toNat + 1) ∧
      siblingOf known proofNodes e.1 = some (label nodes ((siblingIdx e.1).toNat + 1))) :
    ∃ result, rebuildLevel H alg known proofNodes entries next = .ok result ∧ Honest nodes result ∧
      ∀ n, result.contains n ↔ next.contains n ∨ ∃ e ∈ entries, parentIdx e.1 = n := by
  induction entries generalizing next with
  | nil => exact ⟨next, rfl, hnext, by simp⟩
  | cons e entries ih =>
    obtain ⟨⟨hdepth, hlabel, hsibling⟩, hrest⟩ := forall_mem_cons.mp hentries
    by_cases hin : next.contains (parentIdx e.1)
    · obtain ⟨result, hresult, hhonest, hcontains⟩ := ih hnext hrest
      refine ⟨result, ?_, hhonest, fun n => ?_⟩
      · rw [rebuildLevel, rebuildNode_eq_ok.mpr ⟨hdepth.ne_zero, .inl ⟨hin, rfl⟩⟩]
        exact hresult
      · rw [hcontains, exists_mem_cons_iff]
        constructor
        · exact fun h => h.imp_right .inr
        · rintro (h | rfl | h)
          · exact .inl h
          · exact .inl hin
          · exact .inr h
    · -- the parent is hashed from this node and its sibling
      have hparent := hashParent_label ht ha hdepth hk
      rw [← hlabel] at hparent
      have hinsert : Honest nodes (next.insert (parentIdx e.1)
          (label nodes ((parentIdx e.1).toNat + 1))) := hnext.insert
      obtain ⟨result, hresult, hhonest, hcontains⟩ := ih hinsert hrest
      refine ⟨result, ?_, hhonest, fun n => ?_⟩
      · rw [rebuildLevel, rebuildNode_eq_ok.mpr ⟨hdepth.ne_zero, .inr ⟨hin, _, hsibling, rfl⟩⟩,
          hparent]
        exact hresult
      · rw [hcontains, exists_mem_cons_iff, Std.TreeMap.contains_insert, Bool.or_eq_true,
          beq_iff_eq, Std.compare_eq_iff_eq, or_assoc, or_left_comm]

theorem contains_of_mem_toList {e : UInt64 × Hash} (he : e ∈ known.toList) :
    known.contains e.1 := by
  rw [← Std.TreeMap.isSome_getElem?_eq_contains,
    Std.TreeMap.mem_toList_iff_getElem?_eq_some.mp he, Option.isSome_some]

theorem Honest.mem_toList (h : Honest nodes known) (hn : known.contains n) :
    (n, label nodes (n.toNat + 1)) ∈ known.toList :=
  Std.TreeMap.mem_toList_iff_getElem?_eq_some.mpr (h.getElem? hn)

/-- A map whose nodes are all on level 0 holds the root alone. -/
theorem rootOnly_of_atDepth_zero (hdepth : ∀ n, known.contains n → AtDepth 0 n)
    (hne : ∃ n, known.contains n) : known.size = 1 ∧ known.contains 0 := by
  obtain ⟨n, hn⟩ := hne
  have hzero : known.contains 0 := (hdepth n hn).eq_zero ▸ hn
  refine ⟨?_, hzero⟩
  have hkeys : ∀ k ∈ known.keys, k = 0 := fun k hk =>
    (hdepth k (Std.TreeMap.mem_keys.mp hk)).eq_zero
  rw [← Std.TreeMap.length_keys]
  have hmem : (0 : UInt64) ∈ known.keys := Std.TreeMap.mem_keys.mpr hzero
  have hnodup : known.keys.Nodup := Std.TreeMap.distinct_keys.imp fun hne heq =>
    hne (Std.compare_eq_iff_eq.mpr heq)
  rw [eq_replicate_iff.mpr ⟨rfl, hkeys⟩, nodup_replicate] at hnodup
  exact le_antisymm hnodup (length_pos_of_mem hmem)

include ht ha in
/-- If the verifier knows a level above the leaves and the proof carries the frontier, the rebuild
ends in the root. -/
theorem rebuildRoot_honest {D : Set ℕ} (hD : ∀ x ∈ D, 2 ^ a ≤ x) (hproof : Honest nodes proofNodes)
    (hk : k ≤ a) (hlevels : k ≤ levels) (h : KnowsLevel D k known.contains)
    (hknown : Honest nodes known)
    (hcarried : ∀ n : UInt64, Frontier k D (n.toNat + 1) → proofNodes.contains n) :
    ∃ result, rebuildRoot H alg proofNodes levels known = .ok result ∧
      result[(0 : UInt64)]? = some (label nodes 1) := by
  induction k generalizing levels known with
  | zero =>
    have hroot := rootOnly_of_atDepth_zero (fun _ => h.atDepth) h.nonempty
    refine ⟨known, ?_, hknown.getElem? hroot.2⟩
    unfold rebuildRoot
    rw [if_pos hroot]
  | succ k ih =>
    obtain ⟨levels, rfl⟩ : ∃ l, levels = l + 1 := ⟨levels - 1, by omega⟩
    have hzero : ¬ known.contains 0 := fun hin => (h.atDepth hin).ne_zero rfl
    have hfrontier := fun n => h.frontier_iff (n := n) ha hD hk
    -- every known node finds its sibling, known or carried
    have hentries : ∀ e ∈ known.toList, AtDepth (k + 1) e.1 ∧ e.2 = label nodes (e.1.toNat + 1) ∧
        siblingOf known proofNodes e.1 = some (label nodes ((siblingIdx e.1).toNat + 1)) := by
      intro e he
      have hget := Std.TreeMap.mem_toList_iff_getElem?_eq_some.mp he
      have hin := contains_of_mem_toList he
      have hd := h.atDepth hin
      refine ⟨hd, hknown e.1 e.2 hget, ?_⟩
      unfold siblingOf
      by_cases hsib : known.contains (siblingIdx e.1)
      · rw [hknown.getElem? hsib]
        rfl
      · have hsent := hcarried _ ((hfrontier _).mpr (.inl ⟨e.1, hin, hd.ne_zero, hsib, rfl⟩))
        rw [hproof.getElem? hsent, Std.TreeMap.getElem?_eq_none_of_contains_eq_false
          (Bool.eq_false_iff.mpr hsib)]
        rfl
    obtain ⟨next, hnext, hhonest, hcontains⟩ :=
      rebuildLevel_honest ht ha (Nat.lt_of_succ_le hk) Honest.empty hentries
    have hup : KnowsLevel D k next.contains := by
      refine h.parents ha hD hk fun n => (hcontains n).trans ⟨?_, ?_⟩
      · rintro (hempty | ⟨e, he, hparent⟩)
        · simp at hempty
        · exact ⟨e.1, contains_of_mem_toList he, (hentries e he).1.ne_zero, hparent⟩
      · rintro ⟨node, hnode, -, hparent⟩
        exact .inr ⟨_, hknown.mem_toList hnode, hparent⟩
    obtain ⟨result, hresult, hroot⟩ := ih (Nat.le_of_succ_le hk) (Nat.le_of_succ_le_succ hlevels)
      hup hhonest fun n hn => hcarried n ((hfrontier n).mpr (.inr hn))
    refine ⟨result, ?_, hroot⟩
    have hnonempty : ¬ known.isEmpty = true := by
      rw [Bool.not_eq_true, Std.TreeMap.isEmpty_eq_false_iff_exists_contains_eq_true]
      exact h.nonempty
    unfold rebuildRoot
    rw [if_neg (fun h => hzero h.2), if_neg hnonempty]
    simp only [hnext]
    exact hresult

end

/-! ### Carrying the siblings -/

include hlength in
/-- Nodes of the tree can be looked up, and are carried. -/
theorem addNodes_honest (hm : Honest nodes m) {indices : List UInt64}
    (hidx : ∀ n ∈ indices, n.toNat + 1 < 2 ^ (a + 1)) :
    ∃ m', addNodes nodes indices m = .ok m' ∧ Honest nodes m' ∧
      (∀ n, m.contains n → m'.contains n) ∧ ∀ n ∈ indices, m'.contains n := by
  induction indices generalizing m with
  | nil => exact ⟨m, rfl, hm, fun _ h => h, fun _ h => absurd h not_mem_nil⟩
  | cons n indices ih =>
    obtain ⟨hn, hrest⟩ := forall_mem_cons.mp hidx
    have hinsert : Honest nodes (m.insert n (label nodes (n.toNat + 1))) := hm.insert
    obtain ⟨m', hm', hhonest, hmono, hall⟩ := ih hinsert hrest
    refine ⟨m', ?_, hhonest, fun k hk => hmono k ?_, ?_⟩
    · rw [addNodes, getElem?_nodes hlength hn, okOr, ok_bind, hm']
    · rw [Std.TreeMap.contains_insert, hk, Bool.or_true]
    · exact forall_mem_cons.mpr ⟨hmono n Std.TreeMap.contains_insert_self, hall⟩

/-- The digests of leaves inside the row are their labels. -/
def LabelledLeaves (nodes : List Hash) (a : ℕ) (leaves : List (UInt64 × Hash)) : Prop :=
  ∀ leaf ∈ leaves, leaf.1.toNat < 2 ^ a ∧ leaf.2 = label nodes (2 ^ a + leaf.1.toNat)

include ha in
theorem knownLeaves_honest (hnodup : (leaves.map Prod.fst).Nodup)
    (hleaves : LabelledLeaves nodes a leaves) :
    Honest nodes (knownLeaves (2 ^ a) leaves) ∧ ∀ n, (knownLeaves (2 ^ a) leaves).contains n ↔
        ∃ leaf ∈ leaves, leafNode (2 ^ a) leaf.1 = n := by
  have hcontains : ∀ n, (knownLeaves (2 ^ a) leaves).contains n ↔
      ∃ leaf ∈ leaves, leafNode (2 ^ a) leaf.1 = n := by
    intro n
    rw [knownLeaves, Std.TreeMap.contains_ofList, map_map, contains_iff_mem, mem_map]
    rfl
  refine ⟨fun n v hv => ?_, hcontains⟩
  obtain ⟨leaf, hmem, rfl⟩ := (hcontains n).mp (by
    rw [← Std.TreeMap.isSome_getElem?_eq_contains, hv, Option.isSome_some])
  obtain ⟨hidx, hlabel⟩ := hleaves leaf hmem
  rw [getElem?_knownLeaves hnodup hmem, Option.some.injEq] at hv
  rw [← hv, hlabel, toNat_leafNode ha hidx]

/-- The sibling digests of a proof for nodes of a row of the tree, given by their index in a row
of `width` nodes. -/
def collectRow (nodes : List Hash) (width : ℕ) (indices : List UInt64) :
    ProofConstruction → Except MerkleError NodeMap
  | .naiveDedup => addPaths nodes width indices ∅
  | .canonicalPruned => addNodes nodes (prunedSiblingIndices width indices).toList ∅

theorem collectNodes_eq_collectRow (tree : MerkleTree) (indices : List UInt64)
    (construction : ProofConstruction) :
    collectNodes tree indices construction =
      collectRow tree.nodes tree.paddedCount indices construction := by
  cases construction <;> rfl

include ht ha hlength in
/-- Collecting the nodes of a proof for a row succeeds, and the check with them accepts unless a
pruned proof covers no leaf. -/
theorem checkProof_collectRow (construction : ProofConstruction)
    (hnodup : (leaves.map Prod.fst).Nodup) (hleaves : LabelledLeaves nodes a leaves) :
    ∃ proofNodes, collectRow nodes (2 ^ a) (leaves.map Prod.fst) construction = .ok proofNodes ∧
      (checkProof H alg (label nodes 1) proofNodes (2 ^ a) leaves construction = .ok true ↔
        construction = .naiveDedup ∨ leaves ≠ []) := by
  have hidx : ∀ i ∈ leaves.map Prod.fst, i.toNat < 2 ^ a := by
    intro i hi
    obtain ⟨leaf, hleaf, rfl⟩ := mem_map.mp hi
    exact (hleaves leaf hleaf).1
  cases construction with
  | naiveDedup =>
    obtain ⟨m, hm, hhonest, -, hpaths⟩ := addPaths_honest ha hlength Honest.empty hidx
    refine ⟨m, by rw [collectRow, hm], iff_of_true ?_ (.inl rfl)⟩
    refine checkPaths_honest ht ha hhonest fun leaf hleaf => ?_
    obtain ⟨hidx, hlabel⟩ := hleaves leaf hleaf
    exact ⟨hidx, hlabel, hpaths _ (mem_map_of_mem hleaf)⟩
  | canonicalPruned =>
    by_cases hne : leaves = []
    · -- nothing is known, so there is nothing to rebuild from
      subst hne
      have herror : checkProof H alg (label nodes 1) ∅ (2 ^ a) [] .canonicalPruned =
        .error .companionTampered := rfl
      exact ⟨∅, rfl, by simp [herror]⟩
    · have hne' : leaves.map Prod.fst ≠ [] := fun h => hne (map_eq_nil_iff.mp h)
      have hmem := fun n => mem_prunedSiblingIndices (n := n) ha hidx hne'
      obtain ⟨m, hm, hhonest, -, hcarried⟩ := addNodes_honest hlength Honest.empty
        fun n hn => ((hmem n).mp (Std.TreeSet.mem_toList.mp hn)).1
      refine ⟨m, by rw [collectRow, hm], iff_of_true ?_ (.inr hne)⟩
      obtain ⟨hknown, hcontains⟩ := knownLeaves_honest ha hnodup hleaves
      have hlevels : a ≤ maxLevels := ha.trans (by decide)
      have hlevel := knowsLevel_leaves ha hidx hne' fun n => (hcontains n).trans
        (by rw [map_map, mem_map]; rfl)
      obtain ⟨result, hresult, hroot⟩ := rebuildRoot_honest ht ha
        (fun _ => le_of_mem_leafPositions ha hidx) hhonest le_rfl hlevels hlevel
        hknown fun n hn => hcarried n (Std.TreeSet.mem_toList.mpr ((hmem n).mpr hn))
      unfold knownLeaves at hresult
      simp only [checkProof, checkRebuilt, hresult, hroot, ok_bind, okOr]
      simp [reject]

/-- Collecting the nodes of a proof succeeds, and the check with them accepts unless a pruned
proof covers no leaf. -/
theorem checkProof_collectNodes {tree : MerkleTree} (construction : ProofConstruction)
    (ht : IsHashed (alg.hashPair H) a (label tree.nodes)) (hpow : tree.paddedCount = 2 ^ a)
    (ha : a ≤ 39) (hnodup : (leaves.map Prod.fst).Nodup)
    (hleaves : LabelledLeaves tree.nodes a leaves) :
    ∃ proofNodes, collectNodes tree (leaves.map Prod.fst) construction = .ok proofNodes ∧
      (checkProof H alg tree.root proofNodes (2 ^ a) leaves construction = .ok true ↔
        construction = .naiveDedup ∨ leaves ≠ []) := by
  rw [collectNodes_eq_collectRow, hpow]
  refine checkProof_collectRow ht (ha.trans (by decide)) ?_ construction hnodup hleaves
  rw [tree.length_nodes, hpow, pow_succ']

/-! ### Completeness -/

section

variable {chunks : List Bytes}

def deliver (chunks : List Bytes) (indices : List UInt64) : List ChunkData :=
  indices.map fun i => ⟨i, chunks.getD i.toNat []⟩

theorem map_index_deliver (indices : List UInt64) :
    (deliver chunks indices).map ChunkData.index = indices := by
  rw [deliver, map_map]
  exact map_id indices

/-- The leaves of a tree over chunks. -/
theorem label_fromChunks {a i : ℕ} (ha : nextPowerOfTwo chunks.length = 2 ^ a)
    (hi : i < chunks.length) :
    label (fromChunks H chunks alg).nodes (2 ^ a + i) = alg.hashLeaf H (chunks.getD i []) := by
  rw [fromChunks, fromLeafHashes_leaf (by simpa using ha), paddedRow,
    getD_append _ _ _ _ (by simpa using hi), getD_eq_getElem _ _ (by simpa using hi),
    getElem_map, getD_eq_getElem _ _ hi]

theorem leafHash_fromChunks {i : ℕ} {x : Hash} : (fromChunks H chunks alg).leafHash i = some x ↔
      i < chunks.length ∧ x = alg.hashLeaf H (chunks.getD i []) := by
  obtain ⟨a, ha⟩ := exists_nextPowerOfTwo chunks.length
  have hcount : (fromChunks H chunks alg).leafCount = chunks.length := by
    simp [fromChunks]
  have hpadded : (fromChunks H chunks alg).paddedCount = 2 ^ a := by
    simp [fromChunks, ha]
  rw [leafHash, hcount, hpadded]
  by_cases hi : i < chunks.length
  · have hone := Nat.two_pow_pos a
    have hlabel : label (fromChunks H chunks alg).nodes (2 ^ a + i) =
      alg.hashLeaf H (chunks.getD i []) := label_fromChunks ha hi
    rw [label, show 2 ^ a + i - 1 = 2 ^ a - 1 + i by omega] at hlabel
    rw [if_neg (not_le.mpr hi), Option.some.injEq, hlabel, eq_comm]
    exact (and_iff_right hi).symm
  · rw [if_pos (not_lt.mp hi)]
    simp [hi]

variable {dims chunkShape : List UInt64} {elemSize : UInt32} {layoutClass : LayoutClass}
  {sel : Selection} {paddedCount : ℕ}

/-- **Subset completeness.** For chunks laid out row-major over an acceptable grid, a proof for
a selection of the grid's rank can be extracted; with the honest chunks it is accepted unless
it is a pruned proof for a selection that touches no chunk of the grid. -/
theorem extractSubsetWith_verifies_iff (construction : ProofConstruction)
    (hpadded : checkedPaddedLeafCount
      (.new H dims chunkShape elemSize layoutClass alg) = .ok paddedCount)
    (hcount : chunks.length =
      (ChunkGridParams.new H dims chunkShape elemSize layoutClass alg).totalChunkCount.toNat)
    (hrank : sel.HasRank dims.length) :
    ∃ p, extractSubsetWith H (.fromChunks H chunks alg)
        (.new H dims chunkShape elemSize layoutClass alg) sel .rowMajor construction = .ok p ∧
      (verifySubsetWith H alg (MerkleTree.fromChunks H chunks alg).root
          (deliver chunks p.chunkIndices) p (.new H dims chunkShape elemSize layoutClass alg)
          (ChunkGridParams.new H dims chunkShape elemSize layoutClass alg).gridHash sel .rowMajor
          construction = .ok true ↔
        construction = .naiveDedup ∨ computeExpectedChunkIndices
          (.new H dims chunkShape elemSize layoutClass alg) sel .rowMajor ≠ .ok []) := by
  have hvalid := validGrid_of_checked hpadded
  obtain ⟨a, ha, hpow⟩ := hvalid.height
  obtain ⟨indices, hindices⟩ :=
    computeExpectedChunkIndices_ok hpadded (checkOrderBitBudget_rowMajor _) hrank
  -- the tree over the chunks has the size the grid prescribes
  have hwidth : nextPowerOfTwo chunks.length = 2 ^ a := by
    rw [hcount, hvalid.toNat_totalChunkCount, ← hvalid.paddedCount_eq, hpow]
  have htree : (fromChunks H chunks alg).paddedCount = 2 ^ a := by
    simp [fromChunks, hwidth]
  have hhashed : IsHashed (alg.hashPair H) a (label (fromChunks H chunks alg).nodes) :=
    fromLeafHashes_isHashed (by simpa using hwidth)
  have hlt : ∀ i ∈ indices, i.toNat < chunks.length := by
    intro i hi
    rw [hcount, hvalid.toNat_totalChunkCount]
    exact lt_chunkTotal_of_mem hindices hi
  -- the delivered leaves are the labels of the tree
  have hfst : (deliveredLeaves H alg (deliver chunks indices)).map Prod.fst = indices := by
    rw [deliveredLeaves, map_map]
    exact map_index_deliver indices
  have hleaves : LabelledLeaves (fromChunks H chunks alg).nodes a
      (deliveredLeaves H alg (deliver chunks indices)) := by
    intro leaf hleaf
    simp only [deliveredLeaves, deliver, map_map, mem_map] at hleaf
    obtain ⟨i, hi, rfl⟩ := hleaf
    exact ⟨lt_of_lt_of_le (hlt i hi) (hwidth ▸ le_nextPowerOfTwo _),
      (label_fromChunks hwidth (hlt i hi)).symm⟩
  obtain ⟨proofNodes, hcollect, hcheck⟩ := checkProof_collectNodes construction
    hhashed htree ha (hfst.symm ▸ nodup_of_computeExpectedChunkIndices hindices) hleaves
  rw [hfst] at hcollect
  have hhashes : traverseIdx (fun _ (leafIdx : UInt64) =>
      okOr (MerkleError.hyperslabOutOfBounds leafIdx.toNat)
        ((fromChunks H chunks alg).leafHash leafIdx.toNat)) 0 indices =
      .ok ((deliver chunks indices).map fun c => alg.hashLeaf H c.data) := by
    have hread : ∀ (j : ℕ) (i : UInt64) (x : Hash),
        okOr (MerkleError.hyperslabOutOfBounds i.toNat)
          ((fromChunks H chunks alg).leafHash i.toNat) = .ok x ↔
        i.toNat < chunks.length ∧ x = alg.hashLeaf H (chunks.getD i.toNat []) :=
      fun _ i x => okOr_eq_ok.trans leafHash_fromChunks
    refine (traverseIdx_eq_ok hread).mpr ⟨fun j hj => hlt _ (getElem_mem hj), ?_⟩
    exact ext_getElem (by simp [deliver]) (by simp [deliver])
  refine ⟨⟨indices, (deliver chunks indices).map fun c => alg.hashLeaf H c.data, proofNodes,
    .new H dims chunkShape elemSize layoutClass alg, coverageCert H indices
      (ChunkGridParams.new H dims chunkShape elemSize layoutClass alg).gridHash alg⟩, ?_, ?_⟩
  · have halg : (fromChunks H chunks alg).alg = alg := fromLeafHashes_alg H _ alg
    simp [extractSubsetWith, hindices, hhashes, hcollect, returning, halg]
  have hne : deliveredLeaves H alg (deliver chunks indices) ≠ [] ↔
      (.ok indices : Except (Halt MerkleError) _) ≠ .ok [] := by
    simp [deliveredLeaves, deliver]
  rw [verifySubsetWith_eq_ok, map_index_deliver, hindices, hpadded, hpow,
    (sorted_of_computeExpectedChunkIndices hindices).insertionSort_eq, ← hne, ← hcheck]
  constructor
  · rintro ⟨-, -, -, -, -, width, hwidth', hverdict⟩
    rwa [← Except.ok.inj hwidth'] at hverdict
  · intro hverdict
    exact ⟨rfl, rfl, rfl, rfl, rfl, _, rfl, hverdict⟩

/-- Two of three chunks in a row, on SHA-256. -/
theorem extractSubsetWith_verifies_threeChunks :
    ∃ p, extractSubsetWith sha256Only (.fromChunks sha256Only [[0x61], [0x62], [0x63]] .sha256)
        (.new sha256Only [3] [1] 1 .chunked .sha256) (.points [[2], [0]]) .rowMajor
        .canonicalPruned = .ok p ∧
      verifySubsetWith sha256Only .sha256
          (MerkleTree.fromChunks sha256Only [[0x61], [0x62], [0x63]] .sha256).root
          (deliver [[0x61], [0x62], [0x63]] p.chunkIndices) p
          (.new sha256Only [3] [1] 1 .chunked .sha256)
          (ChunkGridParams.new sha256Only [3] [1] 1 .chunked .sha256).gridHash
          (.points [[2], [0]]) .rowMajor .canonicalPruned = .ok true := by
  have hpadded : checkedPaddedLeafCount (.new sha256Only [3] [1] 1 .chunked .sha256) = .ok 4 := by
    decide +kernel
  obtain ⟨p, hextract, hverify⟩ := @extractSubsetWith_verifies_iff _ _ [[0x61], [0x62], [0x63]] _ _
    _ _ (.points [[2], [0]]) _ .canonicalPruned hpadded (by decide +kernel) (by decide)
  exact ⟨p, hextract, hverify.mpr (.inr (by decide +kernel))⟩

/-- A pruned proof for a selection without chunks is extracted and then rejected. -/
theorem extractSubsetWith_nothing_rejected :
    ∃ p, extractSubsetWith sha256Only (.fromChunks sha256Only [[0x61]] .sha256)
        (.new sha256Only [1] [1] 1 .chunked .sha256) .none .rowMajor .canonicalPruned = .ok p ∧
      verifySubsetWith sha256Only .sha256 (MerkleTree.fromChunks sha256Only [[0x61]] .sha256).root
          (deliver [[0x61]] p.chunkIndices) p (.new sha256Only [1] [1] 1 .chunked .sha256)
          (ChunkGridParams.new sha256Only [1] [1] 1 .chunked .sha256).gridHash .none .rowMajor
          .canonicalPruned = .error (.error .companionTampered) := by
  decide +kernel

end

end ClawHdf5.Subset
