import ClawHdf5.Math.PanicFree
import ClawHdf5.Subset.FullSweep
import ClawHdf5.Subset.Proof

/-!
# Selections with vectors of different lengths

The rank of a selection is read off the starts of a hyperslab, or off its first point. The other
vectors are indexed by axis without a check, so one that is too short makes the code panic. A
hyperslab is read axis by axis and no further than the first axis on which it is empty.
-/

namespace ClawHdf5

/-- The vectors of a selection are as long as the code reads them on `n` axes. -/
def Selection.LongEnough (n : ℕ) : Selection → Prop
  | .all | .none => True
  | .points pts => ∀ pt ∈ pts, n ≤ pt.length
  | .hyperslab _ stride count block =>
    ∀ d < n, (∀ i < d, count.getD i 0 ≠ 0 ∧ block.getD i 0 ≠ 0) →
      d < count.length ∧ (count.getD d 0 ≠ 0 →
        d < block.length ∧ (block.getD d 0 ≠ 0 → d < stride.length))

instance (n : ℕ) (sel : Selection) : Decidable (sel.LongEnough n) :=
  match sel with
  | .all => isTrue trivial
  | .none => isTrue trivial
  | .points _ => inferInstanceAs (Decidable (∀ pt ∈ _, _))
  | .hyperslab _ _ _ _ => inferInstanceAs (Decidable (∀ d < _, (∀ i < d, _) → _))

namespace Subset

open Fallible Merkle Odometer List

variable {ε : Type}

/-! ### Hyperslabs -/

section

variable {start stride count block : List UInt64} {d n : ℕ}

theorem returns_hyperslabAxis_iff (hstart : d < start.length) :
    Returns (hyperslabAxis start stride count block d : Except (Halt ε) _) ↔
      d < count.length ∧ (count.getD d 0 ≠ 0 →
        d < block.length ∧ (block.getD d 0 ≠ 0 → d < stride.length)) := by
  rw [hyperslabAxis_eq, Returns]
  grind

theorem exists_hyperslabAxis_iff (hstart : d < start.length) :
    (∃ b, (hyperslabAxis start stride count block d : Except (Halt ε) _) = .ok (some b)) ↔
      count.getD d 0 ≠ 0 ∧ block.getD d 0 ≠ 0 ∧ d < stride.length := by
  simp only [hyperslabAxis_eq_some]
  grind

/-- Reading the axes up to the first empty one. -/
theorem returns_hyperslabAxes_iff (hstart : start.length = n) :
    Returns (collectSome (hyperslabAxis start stride count block) (range n) : Except (Halt ε) _) ↔
      (Selection.hyperslab start stride count block).LongEnough n := by
  rw [returns_collectSome_range, Selection.LongEnough]
  have haxis : ∀ d < n, d < start.length := fun d hd => hstart.symm ▸ hd
  constructor
  · intro h d
    -- the strides of the axes before `d` were read
    induction d using Nat.strong_induction_on with
    | _ d ih =>
      intro hd hbefore
      refine (returns_hyperslabAxis_iff (ε := ε) (haxis d hd)).mp (h d hd fun i hi => ?_)
      obtain ⟨hn0, hw0⟩ := hbefore i hi
      have hread := ih i hi (hi.trans hd) fun j hj => hbefore j (hj.trans hi)
      exact (exists_hyperslabAxis_iff (haxis i (hi.trans hd))).mpr
        ⟨hn0, hw0, (hread.2 hn0).2 hw0⟩
  · intro h d hd hbefore
    refine (returns_hyperslabAxis_iff (haxis d hd)).mpr (h d hd fun i hi => ?_)
    obtain ⟨hn0, hw0, -⟩ :=
      (exists_hyperslabAxis_iff (haxis i (hi.trans hd))).mp (hbefore i hi)
    exact ⟨hn0, hw0⟩

end

/-! ### Points -/

section

variable {pts : List (List UInt64)} {d n : ℕ}

theorem returns_pointsAxis_iff :
    Returns (pointsAxis pts d : Except (Halt ε) _) ↔ ∀ pt ∈ pts, d < pt.length := by
  rw [pointsAxis_eq]
  split_ifs with h
  · exact iff_of_true nofun h
  · exact iff_of_false (fun hpanic => hpanic rfl) h

theorem returns_pointsAxes_iff :
    Returns (collectSome (pointsAxis pts) (range n) : Except (Halt ε) _) ↔
      (Selection.points pts).LongEnough n := by
  rw [returns_collectSome_range]
  simp only [returns_pointsAxis_iff]
  constructor
  · intro h
    -- every axis is read on every point
    have hread : ∀ d < n, ∀ pt ∈ pts, d < pt.length := by
      intro d
      induction d using Nat.strong_induction_on with
      | _ d ih =>
        intro hd
        refine h d hd fun i hi => ?_
        obtain ⟨r, hr⟩ := pointsAxis_ok (ε := ε) (ih i hi (hi.trans hd))
        obtain ⟨-, b, rfl, -⟩ := pointsAxis_eq_ok hr
        exact ⟨_, hr⟩
    intro pt hpt
    by_contra hshort
    exact lt_irrefl _ (hread pt.length (Nat.lt_of_not_le hshort) pt hpt)
  · intro h d hd _ pt hpt
    exact hd.trans_le (h pt hpt)

end

/-! ### The sweep -/

section

variable {sel : Selection} {nPerDim chunkShape : List UInt64}

section

variable (hshape : chunkShape.length = nPerDim.length)
  (hrank : ∀ r, sel.rank = some r → r = nPerDim.length)
include hshape hrank

/-- The bounds of a selection are computed exactly when its vectors are long enough. -/
theorem returns_selectionChunkBounds_iff :
    Returns (selectionChunkBounds sel nPerDim chunkShape : Except (Halt ε) _) ↔
      sel.LongEnough nPerDim.length := by
  have hboxes : ∀ {f : ℕ → Except (Halt ε) (Option (UInt64 × UInt64))} (elements : Option Box),
      collectSome f (range nPerDim.length) = .ok elements →
      Returns (chunkBox nPerDim chunkShape elements : Except (Halt ε) _) := by
    intro f elements helements
    obtain ⟨r, hr⟩ := chunkBox_collected_ok hshape helements
    rw [hr]
    exact returns_ok r
  cases sel with
  | all => exact iff_of_true (returns_ok _) trivial
  | none => exact iff_of_true (returns_ok _) trivial
  | hyperslab start stride count block =>
    rw [selectionChunkBounds, returns_bind, returns_hyperslabAxes_iff (hrank _ rfl)]
    exact and_iff_left hboxes
  | points pts =>
    rw [selectionChunkBounds]
    by_cases hnil : pts = []
    · rw [hnil]
      exact iff_of_true (returns_ok none) fun pt hpt => absurd hpt not_mem_nil
    · rw [if_neg hnil, returns_bind, returns_pointsAxes_iff]
      exact and_iff_left hboxes

/-- Where there is a box, the vectors of a hyperslab are long enough for the test. -/
theorem intersectsChunk_ok_of_bounds {box : Box}
    (h : (selectionChunkBounds sel nPerDim chunkShape : Except (Halt ε) _) = .ok (some box))
    {offset : List UInt64} (hoffset : offset.length = nPerDim.length) :
    ∃ b, (sel.intersectsChunk offset chunkShape : Except (Halt ε) _) = .ok b := by
  cases sel with
  | all => exact ⟨_, rfl⟩
  | none => exact ⟨_, rfl⟩
  | points pts => exact ⟨_, rfl⟩
  | hyperslab start stride count block =>
    have hstart : start.length = nPerDim.length := hrank _ rfl
    rw [selectionChunkBounds, bind_ok_iff] at h
    obtain ⟨elements, helements, h⟩ := h
    cases elements with
    | none => exact absurd h (by simp [chunkBox])
    | some elements =>
      have hall := (collectSome_range (0, 0) helements).2
      have hlong : ∀ d < start.length,
          d < count.length ∧ d < block.length ∧ d < start.length ∧ d < stride.length :=
        fun d hd => (hyperslabAxis_eq_some.mp (hall d (hstart ▸ hd))).1
      have hle : ∀ {l : List UInt64}, (∀ d < start.length, d < l.length) →
          start.length ≤ l.length := by
        intro l hl
        by_contra hshort
        exact lt_irrefl _ (hl l.length (Nat.lt_of_not_le hshort))
      apply intersectsChunk_hyperslab_ok
      simp only [forall_mem_cons, not_mem_nil, false_imp_iff, implies_true, and_true]
      exact ⟨by omega, by omega, hle fun d hd => (hlong d hd).2.2.2,
        hle fun d hd => (hlong d hd).1, hle fun d hd => (hlong d hd).2.1⟩

/-- The sweep returns exactly when the vectors are long enough. -/
theorem returns_chunkCoordsForSelection_iff (hempty : ¬ (nPerDim.length = 0 ∨ 0 ∈ nPerDim)) :
    Returns (chunkCoordsForSelection sel nPerDim chunkShape : Except (Halt ε) _) ↔
      sel.LongEnough nPerDim.length := by
  rw [chunkCoordsForSelection, if_neg hempty, returns_bind,
    returns_selectionChunkBounds_iff hshape hrank]
  refine and_iff_left fun range hrange => ?_
  cases range with
  | none => exact returns_ok []
  | some box =>
    have hgrid := selectionChunkBounds_inGrid (not_or.mp hempty).2 hrange
    refine returns_keep fun c hc => ?_
    have hin := inGrid_of_inBox hgrid ((mem_sweep (box_bounds hgrid)).mp hc)
    refine intersectsChunk_ok_of_bounds hshape hrank hrange ?_
    rw [length_zipWith, hin.length_eq, hshape, min_self]

end

end

/-! ### Requests -/

section

variable {grid : ChunkGridParams} {sel : Selection} {order : LeafOrder}

/-- A request that is answered before the vectors of its selection are read: the rank is another
one, the grid or the order is rejected, or there are no chunks. -/
def NotReached (grid : ChunkGridParams) (sel : Selection) (order : LeafOrder) : Prop :=
  (∃ r, sel.rank = some r ∧ r ≠ grid.dims.length) ∨
    (∀ paddedCount, checkedPaddedLeafCount grid ≠ .ok paddedCount) ∨
    checkOrderBitBudget grid.nChunksPerDim order ≠ .ok () ∨
    grid.nChunksPerDim.length = 0 ∨ 0 ∈ grid.nChunksPerDim

/-- The set of chunks is computed exactly when the vectors are not read or long enough. -/
theorem returns_computeExpectedChunkIndices_iff :
    Returns (computeExpectedChunkIndices grid sel order) ↔
      NotReached grid sel order ∨ sel.LongEnough grid.nChunksPerDim.length := by
  by_cases hother : ∃ r, sel.rank = some r ∧ r ≠ grid.dims.length
  · refine iff_of_true ?_ (.inl (.inl hother))
    obtain ⟨r, hr, hne⟩ := hother
    rw [computeExpectedChunkIndices, hr, Option.filter_some, if_pos (decide_eq_true hne)]
    exact returns_error _
  have hrank : ∀ r, sel.rank = some r → r = grid.dims.length := fun r hr =>
    by_contra fun hne => hother ⟨r, hr, hne⟩
  have hfilter : sel.rank.filter (fun r => r ≠ grid.dims.length) = none := by
    rw [Option.filter_eq_none_iff]
    intro r hr
    simpa using hrank r hr
  simp only [computeExpectedChunkIndices, hfilter, returns_returning_bind]
  by_cases hgrid : ∃ paddedCount, checkedPaddedLeafCount grid = .ok paddedCount
  swap
  · refine iff_of_true (fun p hp => absurd ⟨p, hp⟩ hgrid) (.inl (.inr (.inl fun p hp => ?_)))
    exact hgrid ⟨p, hp⟩
  by_cases hbudget : checkOrderBitBudget grid.nChunksPerDim order = .ok ()
  swap
  · exact iff_of_true (fun _ _ _ hok => absurd hok hbudget) (.inl (.inr (.inr (.inl hbudget))))
  obtain ⟨paddedCount, hpadded⟩ := hgrid
  have hvalid := validGrid_of_checked hpadded
  have hlen := hvalid.length_nChunksPerDim
  by_cases hempty : grid.nChunksPerDim.length = 0 ∨ 0 ∈ grid.nChunksPerDim
  · refine iff_of_true (fun _ _ _ _ => ?_) (.inl (.inr (.inr (.inr hempty))))
    rw [chunkCoordsForSelection, if_pos hempty]
    exact returns_ok _
  have hreached : ¬ NotReached grid sel order := by
    intro h
    rcases h with h | h | h | h
    · exact hother h
    · exact h paddedCount hpadded
    · exact h hbudget
    · exact hempty h
  rw [or_iff_right hreached, ← returns_chunkCoordsForSelection_iff (ε := MerkleError)
    (hvalid.length_eq.symm.trans hlen.symm) (fun r hr => (hrank r hr).trans hlen.symm) hempty]
  constructor
  · exact fun h => (returns_bind.mp (h paddedCount hpadded () hbudget)).1
  · exact fun h _ _ _ _ => returns_bind.mpr ⟨h, fun coords _ => returns_ok _⟩

theorem returns_extractSubsetWith_iff (H : Hashers) (tree : MerkleTree)
    (construction : ProofConstruction) :
    Returns (extractSubsetWith H tree grid sel order construction) ↔
      Returns (computeExpectedChunkIndices grid sel order) := by
  rw [extractSubsetWith, returns_bind]
  refine and_iff_left fun indices _ => ?_
  exact returns_returning_bind.mpr fun hashes _ =>
    returns_returning_bind.mpr fun nodes _ => returns_ok _

theorem returns_checkLeaves (H : Hashers) (alg : HashAlg) {leafHashes : List Hash}
    {chunks : List (ChunkData × UInt64)} (h : chunks.length ≤ leafHashes.length) :
    Returns (checkLeaves H alg leafHashes chunks) := by
  refine returns_traverseIdx fun i c hc => ?_
  have hi : i < leafHashes.length := lt_of_lt_of_le (lt_of_getElem? hc) h
  rw [zero_add]
  exact returns_bind.mpr ⟨returns_index hi, fun claimed _ =>
    returns_returning_bind.mpr fun _ _ => returns_ok _⟩

/-- Verifying any delivery returns exactly when computing the expected set does. -/
theorem returns_verifySubsetWith_iff (H : Hashers) (alg : HashAlg) :
    (∀ root chunks proof trustedGridHash construction,
        Returns (verifySubsetWith H alg root chunks proof grid trustedGridHash sel order
          construction)) ↔
      Returns (computeExpectedChunkIndices grid sel order) := by
  constructor
  · intro h
    -- an empty delivery against the hash of the grid itself passes the checks before the set
    have hempty := h zeroHash [] ⟨[], [], ∅, grid, zeroHash⟩
      (computeGridHash H grid.dims grid.chunkShape grid.elemSize grid.layoutClass alg) .naiveDedup
    have hhash := returns_returning_bind.mp hempty ()
      (reject_of_not (not_not.mpr (constantTimeEq_iff.mpr rfl)))
    have hlengths := returns_returning_bind.mp hhash () (reject_of_not (by simp))
    have hindices := returns_returning_bind.mp hlengths () (reject_of_not (by simp))
    exact (returns_bind.mp hindices).1
  · intro h root chunks proof trustedGridHash construction
    rw [verifySubsetWith]
    refine returns_returning_bind.mpr fun _ _ => returns_returning_bind.mpr fun _ hlengths =>
      returns_returning_bind.mpr fun _ _ => returns_bind.mpr ⟨h, fun indices _ => ?_⟩
    refine returns_returning_bind.mpr fun _ _ => returns_returning_bind.mpr fun _ _ =>
      returns_returning_bind.mpr fun paddedCount _ => returns_bind.mpr ⟨?_, fun leaves _ => ?_⟩
    · apply returns_checkLeaves
      have hle := not_or.mp (reject_eq_ok.mp hlengths)
      rw [length_zip]
      omega
    · exact returns_returning _

end

/-- Computing the chunks of a request, extracting a proof for it and verifying deliveries against it
all return exactly when the vectors of the selection are not read or long enough. -/
theorem computeExpectedChunkIndices_returns_iff (grid : ChunkGridParams) (sel : Selection)
    (order : LeafOrder) :
    (Returns (computeExpectedChunkIndices grid sel order) ↔
        NotReached grid sel order ∨ sel.LongEnough grid.nChunksPerDim.length) ∧
      (∀ H tree construction, Returns (extractSubsetWith H tree grid sel order construction) ↔
        NotReached grid sel order ∨ sel.LongEnough grid.nChunksPerDim.length) ∧
      ∀ H alg, (∀ root chunks proof trustedGridHash construction,
          Returns (verifySubsetWith H alg root chunks proof grid trustedGridHash sel order
            construction)) ↔
        NotReached grid sel order ∨ sel.LongEnough grid.nChunksPerDim.length := by
  have hset := @returns_computeExpectedChunkIndices_iff grid sel order
  exact ⟨hset, fun H tree construction => (returns_extractSubsetWith_iff H tree construction).trans
    hset, fun H alg => (returns_verifySubsetWith_iff H alg).trans hset⟩

/-- A hyperslab whose blocks are missing panics on a grid of one chunk. -/
theorem computeExpectedChunkIndices_panics :
    computeExpectedChunkIndices ⟨.chunked, [1], [1], 1, zeroHash⟩ (.hyperslab [0] [1] [1] [])
      .rowMajor = .error .panic := by
  decide +kernel

end Subset

end ClawHdf5
