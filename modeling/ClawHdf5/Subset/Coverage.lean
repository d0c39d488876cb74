import ClawHdf5.Math.Odometer
import ClawHdf5.Math.SortDedup
import ClawHdf5.Selection
import ClawHdf5.Subset.Order

/-!
# The chunks a selection touches

Prover and verifier derive the set of expected leaf indices from the grid and the selection.
The selection's bounding box is mapped to chunk coordinates and clamped to the grid; the box
is swept and the chunks that meet the selection are kept.

The end of a chunk is computed as a wrapping sum. On the last chunk of an axis it can reach
`2 ^ 64`, and then the chunk is taken not to meet the selection.
-/

namespace ClawHdf5.Subset

open Fallible MachineInt Merkle Odometer SortDedup List UInt64 Except

variable {ε : Type}

/-- The half-open element range of a hyperslab on axis `d`, if it is not empty. -/
def hyperslabAxis (start stride count block : List UInt64) (d : ℕ) :
    Except (Halt ε) (Option (UInt64 × UInt64)) := do
  let n ← index count d
  if n = 0 then .ok none
  else do
    let width ← index block d
    if width = 0 then .ok none
    else do
      let first ← index start d
      let step ← index stride d
      .ok (some (first, saturatingAdd (saturatingAdd first (saturatingMul (n - 1) step)) width))

/-- The half-open element range of a list of points on axis `d`. -/
def pointsAxis (pts : List (List UInt64)) (d : ℕ) :
    Except (Halt ε) (Option (UInt64 × UInt64)) := do
  let xs ← traverseIdx (fun _ pt => index pt d) 0 pts
  .ok (some (xs.foldl min maxU64, saturatingAdd (xs.foldl max 0) 1))

/-- The inclusive chunk range of an element range on axis `d`, clamped to the grid. -/
def chunkAxis (nPerDim chunkShape : List UInt64) (elements : Box) (d : ℕ) :
    Except (Halt ε) (Option (UInt64 × UInt64)) := do
  let s ← index chunkShape d
  if s = 0 then .ok none
  else do
    let (elLo, elHiExcl) ← index elements d
    if elHiExcl = 0 then .ok none
    else do
      let n ← index nPerDim d
      if elLo ≥ saturatingMul n s then .ok none
      else
        let loChunk := elLo / s
        let hiChunk := min ((elHiExcl - 1) / s) (n - 1)
        .ok (if loChunk > hiChunk then none else some (loChunk, hiChunk))

def chunkBox (nPerDim chunkShape : List UInt64) :
    Option Box → Except (Halt ε) (Option Box)
  | none => .ok none
  | some elements =>
    collectSome (chunkAxis nPerDim chunkShape elements) (range nPerDim.length)

/-- Chunk bounds of the chunks a selection could touch, or `none` if there are none. -/
def selectionChunkBounds (sel : Selection) (nPerDim chunkShape : List UInt64) :
    Except (Halt ε) (Option Box) :=
  match sel with
  | .all => .ok (some (nPerDim.map fun n => (0, n - 1)))
  | .none => .ok none
  | .hyperslab start stride count block => do
    let elements ← collectSome (hyperslabAxis start stride count block)
      (range nPerDim.length)
    chunkBox nPerDim chunkShape elements
  | .points pts =>
    if pts = [] then .ok none
    else do
      let elements ← collectSome (pointsAxis pts) (range nPerDim.length)
      chunkBox nPerDim chunkShape elements

def chunkCoordsForSelection (sel : Selection) (nPerDim chunkShape : List UInt64) :
    Except (Halt ε) (List (List UInt64)) :=
  if nPerDim.length = 0 ∨ 0 ∈ nPerDim then .ok []
  else do
    match ← selectionChunkBounds sel nPerDim chunkShape with
    | none => .ok []
    | some box =>
      keep (fun counter => sel.intersectsChunk (zipWith (· * ·) counter chunkShape) chunkShape)
        (sweep box (volume box) (low box))

/-- The sorted leaf indices a selection touches. -/
def computeExpectedChunkIndices (grid : ChunkGridParams) (sel : Selection) (order : LeafOrder) :
    Except (Halt MerkleError) (List UInt64) :=
  match sel.rank.filter fun r => r ≠ grid.dims.length with
  | some rank => .error (.error (.hyperslabOutOfBounds rank))
  | none => do
    let _ ← returning (checkedPaddedLeafCount grid)
    let nPerDim := grid.nChunksPerDim
    returning (checkOrderBitBudget nPerDim order)
    let coords ← chunkCoordsForSelection sel nPerDim grid.chunkShape
    .ok (sortDedup (· ≤ ·) (coords.map fun c => coordToLeafIndex c nPerDim order))

/-! ### What the set should be -/

/-- The coordinate of the chunk an element is in. -/
def chunkOf (chunkShape e : List UInt64) : List UInt64 := zipWith (· / ·) e chunkShape

/-- The exact end of the chunk of coordinate `x` on an axis with chunk extent `s`. -/
def chunkEnd (s x : UInt64) : ℕ := (x.toNat / s.toNat + 1) * s.toNat

/-- The end of the chunk of `e` fits a word on every axis where it is compared. For a
hyperslab a wrapped end that is still past the start does no harm. -/
def AxesFit (grid : ChunkGridParams) (sel : Selection) (e : List UInt64) : Prop :=
  match sel with
  | .all | .none => True
  | .hyperslab start _ _ _ => ∀ d < grid.dims.length,
    chunkEnd (grid.chunkShape.getD d 0) (e.getD d 0) < 2 ^ 64 ∨
      (start.getD d 0).toNat + 2 ^ 64 < chunkEnd (grid.chunkShape.getD d 0) (e.getD d 0)
  | .points _ => ∀ d < grid.dims.length,
    chunkEnd (grid.chunkShape.getD d 0) (e.getD d 0) < 2 ^ 64

/-- There is an axis, and the ends of the chunk of `e` fit. -/
def EndsFit (grid : ChunkGridParams) (sel : Selection) (e : List UInt64) : Prop :=
  0 < grid.dims.length ∧ AxesFit grid sel e

/-! ### Grids and boxes by axis -/

section

variable {nPerDim c : List UInt64} {d : ℕ}

theorem inGrid_iff_getD : InGrid nPerDim c ↔ c.length = nPerDim.length ∧
    ∀ d < nPerDim.length, (c.getD d 0).toNat < (nPerDim.getD d 0).toNat := by
  rw [InGrid, forall₂_iff_getD 0 0, eq_comm]

theorem InGrid.getD_lt (hc : InGrid nPerDim c) (hd : d < nPerDim.length) :
    (c.getD d 0).toNat < (nPerDim.getD d 0).toNat :=
  (inGrid_iff_getD.mp hc).2 d hd

theorem chunk_end_le {x n : ℕ} (hx : x < n) (s : ℕ) : x * s + s ≤ n * s := by
  rw [← Nat.succ_mul]
  exact Nat.mul_le_mul_right _ hx

end

/-! ### Element ranges -/

/-- The element range of a hyperslab on an axis where it is not empty. -/
def hyperslabRange (start stride count block : List UInt64) (d : ℕ) : UInt64 × UInt64 :=
  (start.getD d 0, saturatingAdd (start.getD d 0)
    (saturatingAdd (saturatingMul (count.getD d 0 - 1) (stride.getD d 0)) (block.getD d 0)))

/-- A coordinate is in an element range. -/
def RangeContains (b : UInt64 × UInt64) (x : UInt64) : Prop :=
  b.1.toNat ≤ x.toNat ∧ x.toNat < b.2.toNat

section

variable {start stride count block : List UInt64} {pts : List (List UInt64)} {d : ℕ}
  {x : UInt64} {range : Option (UInt64 × UInt64)}

/-- The vectors are read in turn, as far as the axis is not found empty. -/
theorem hyperslabAxis_eq : (hyperslabAxis start stride count block d : Except (Halt ε) _) =
      if d < count.length ∧ (count.getD d 0 = 0 ∨ d < block.length ∧ block.getD d 0 = 0) then
        .ok none
      else if d < count.length ∧ d < block.length ∧ d < start.length ∧ d < stride.length then
        .ok (some (hyperslabRange start stride count block d))
      else .error .panic := by
  simp only [hyperslabAxis, index_eq_ite, hyperslabRange, saturatingAdd_assoc]
  grind [ok_bind, error_bind]

theorem hyperslabAxis_eq_some {b : UInt64 × UInt64} :
    (hyperslabAxis start stride count block d : Except (Halt ε) _) = .ok (some b) ↔
      (d < count.length ∧ d < block.length ∧ d < start.length ∧ d < stride.length) ∧
        count.getD d 0 ≠ 0 ∧ block.getD d 0 ≠ 0 ∧
        b = hyperslabRange start stride count block d := by
  rw [hyperslabAxis_eq]
  grind

/-- An axis found empty selects nothing. -/
theorem hyperslabAxis_none
    (h : (hyperslabAxis start stride count block d : Except (Halt ε) _) = .ok none) :
    count.getD d 0 = 0 ∨ block.getD d 0 = 0 := by
  rw [hyperslabAxis_eq] at h
  grind

/-- The end of a hyperslab's range saturates, and a selected coordinate other than the largest
word is below it. -/
theorem hyperslabRange_contains {i j : ℕ} (hi : i < (count.getD d 0).toNat)
    (hj : j < (block.getD d 0).toNat)
    (hx : x.toNat = (start.getD d 0).toNat + i * (stride.getD d 0).toNat + j)
    (hmax : x.toNat < 2 ^ 64 - 1) :
    RangeContains (hyperslabRange start stride count block d) x := by
  have hn : count.getD d 0 ≠ 0 := by
    intro h0
    rw [h0] at hi
    exact Nat.not_lt_zero i hi
  have hlast : i * (stride.getD d 0).toNat ≤
      (count.getD d 0 - 1).toNat * (stride.getD d 0).toNat := by
    rw [toNat_sub_one hn]
    exact Nat.mul_le_mul_right _ (Nat.le_sub_one_of_lt hi)
  simp only [RangeContains, hyperslabRange, toNat_saturatingAdd, toNat_saturatingMul]
  omega

theorem pointsAxis_eq : (pointsAxis pts d : Except (Halt ε) _) =
    if ∀ pt ∈ pts, d < pt.length then
      .ok (some ((pts.map (·.getD d 0)).foldl min maxU64,
        saturatingAdd ((pts.map (·.getD d 0)).foldl max 0) 1))
    else .error .panic := by
  have hread : ∀ k, (traverseIdx (fun _ pt => index pt d) k pts : Except (Halt ε) _) =
      if ∀ pt ∈ pts, d < pt.length then .ok (pts.map (·.getD d 0)) else .error .panic := by
    induction pts with
    | nil => exact fun _ => rfl
    | cons pt pts ih =>
      intro k
      rw [traverseIdx, index_eq_ite]
      grind [ok_bind, error_bind]
  rw [pointsAxis, hread]
  split_ifs <;> rfl

theorem pointsAxis_eq_ok (h : (pointsAxis pts d : Except (Halt ε) _) = .ok range) :
    (∀ pt ∈ pts, d < pt.length) ∧ ∃ b, range = some b ∧
      ∀ pt ∈ pts, (pt.getD d 0).toNat < 2 ^ 64 - 1 → RangeContains b (pt.getD d 0) := by
  rw [pointsAxis_eq] at h
  split_ifs at h with hlong
  refine ⟨hlong, _, (ok.inj h).symm, fun pt hpt hmax => ?_⟩
  have hmem : pt.getD d 0 ∈ pts.map (·.getD d 0) := mem_map_of_mem hpt
  refine ⟨foldl_min_le_toNat (.inl hmem), ?_⟩
  have hle := toNat_le_foldl_max hmem 0
  rw [toNat_saturatingAdd, toNat_one]
  omega

end

section

variable {start stride count block e : List UInt64} {pts : List (List UInt64)} {ndim : ℕ}
  {elements : Option Box}

/-- The element box of a hyperslab that was read contains its elements. -/
theorem hyperslab_elements (h : (collectSome (hyperslabAxis start stride count block) (range ndim) :
      Except (Halt ε) _) = .ok elements)
    (hsel : (Selection.hyperslab start stride count block).Selects e) (hlen : e.length = ndim)
    (hmax : ∀ d, (e.getD d 0).toNat < 2 ^ 64 - 1) :
    ∃ box, elements = some box ∧ box.length = ndim ∧
      ∀ d < ndim, RangeContains (box.getD d (0, 0)) (e.getD d 0) := by
  refine (collectSome_range_iff (P := fun d b => RangeContains b (e.getD d 0)) h).mpr
    fun d hd r hr => ?_
  obtain ⟨i, j, hi, hj, hvalue⟩ := hsel.2 d (hlen.symm ▸ hd)
  cases r with
  | none =>
    rcases hyperslabAxis_none hr with h0 | h0
    · rw [h0] at hi
      exact absurd hi (Nat.not_lt_zero i)
    · rw [h0] at hj
      exact absurd hj (Nat.not_lt_zero j)
  | some b =>
    obtain ⟨-, -, -, rfl⟩ := hyperslabAxis_eq_some.mp hr
    exact ⟨_, rfl, hyperslabRange_contains hi hj hvalue (hmax d)⟩

theorem points_elements
    (h : (collectSome (pointsAxis pts) (range ndim) : Except (Halt ε) _) = .ok elements)
    (hsel : e ∈ pts) (hmax : ∀ d, (e.getD d 0).toNat < 2 ^ 64 - 1) :
    ∃ box, elements = some box ∧ box.length = ndim ∧
      ∀ d < ndim, (∀ pt ∈ pts, d < pt.length) ∧ RangeContains (box.getD d (0, 0)) (e.getD d 0) := by
  refine (collectSome_range_iff (P := fun d b => (∀ pt ∈ pts, d < pt.length) ∧
    RangeContains b (e.getD d 0)) h).mpr fun d hd r hr => ?_
  obtain ⟨hlong, b, rfl, hcontains⟩ := pointsAxis_eq_ok hr
  exact ⟨b, rfl, hlong, hcontains e hsel (hmax d)⟩

end

/-! ### Chunk ranges -/

/-- The chunk `x` of extent `s` meets an element range. -/
def MeetsRange (b : UInt64 × UInt64) (s x : UInt64) : Prop :=
  b.1.toNat < x.toNat * s.toNat + s.toNat ∧ x.toNat * s.toNat < b.2.toNat

/-- The chunk of a coordinate of the range meets the range. -/
theorem RangeContains.meetsRange {b : UInt64 × UInt64} {s x : UInt64} (h : RangeContains b x)
    (hs0 : s ≠ 0) : MeetsRange b s (x / s) := by
  rw [MeetsRange]
  exact ⟨h.1.trans_lt (Nat.lt_div_mul_add (toNat_pos hs0)), (Nat.div_mul_le_self _ _).trans_lt h.2⟩

section

variable {nPerDim chunkShape c : List UInt64} {elements : Box} {d : ℕ}
  {b : UInt64 × UInt64} {range : Option (UInt64 × UInt64)}

/-- A chunk range is read off the grid, the shape and the element range. -/
theorem chunkAxis_eq_some {r : UInt64 × UInt64} :
    (chunkAxis nPerDim chunkShape elements d : Except (Halt ε) _) = .ok (some r) ↔
      ∃ s b n, chunkShape[d]? = some s ∧ elements[d]? = some b ∧ nPerDim[d]? = some n ∧
        s ≠ 0 ∧ b.2 ≠ 0 ∧ b.1 < saturatingMul n s ∧
        r = (b.1 / s, min ((b.2 - 1) / s) (n - 1)) ∧ r.1 ≤ r.2 := by
  simp only [chunkAxis, index]
  grind [ok_bind, error_bind, okOr]

/-- The chunk range holds the chunks of the grid that meet the element range. The product of the
grid and the shape saturates, which matters for the largest word only. -/
theorem chunkAxis_contains_iff {s n x : UInt64} (hs : chunkShape[d]? = some s) (hs0 : s ≠ 0)
    (hb : elements[d]? = some b) (hn : nPerDim[d]? = some n) (hx : x.toNat < n.toNat)
    (hlo : n.toNat * s.toNat < 2 ^ 64 ∨ b.1.toNat < 2 ^ 64 - 1)
    (h : (chunkAxis nPerDim chunkShape elements d : Except (Halt ε) _) = .ok range) :
    (∃ r, range = some r ∧ r.1 ≤ x ∧ x ≤ r.2) ↔ MeetsRange b s x := by
  have hspos := toNat_pos hs0
  have hn0 : n ≠ 0 := fun h0 => Nat.not_lt_zero _ (h0 ▸ hx)
  have hend : x.toNat * s.toNat + s.toNat ≤ n.toNat * s.toNat := chunk_end_le hx s.toNat
  -- the bounds of the range, in exact numbers
  have hbounds : b.2 ≠ 0 → ((b.1 / s ≤ x ∧ x ≤ min ((b.2 - 1) / s) (n - 1)) ↔
      MeetsRange b s x) := by
    intro hhi
    have hhipos := toNat_pos hhi
    rw [le_iff_toNat_le, le_iff_toNat_le, toNat_min,
      UInt64.toNat_div, UInt64.toNat_div, toNat_sub_one hhi, toNat_sub_one hn0, le_min_iff,
      Nat.le_div_iff_mul_le hspos, ← Nat.lt_succ_iff, Nat.div_lt_iff_lt_mul hspos, Nat.succ_mul]
    exact and_congr_right fun _ => by omega
  constructor
  · intro hr
    obtain ⟨r, rfl, hin⟩ := hr
    obtain ⟨s', b', n', hs', hb', hn', -, hhi, -, rfl, -⟩ := chunkAxis_eq_some.mp h
    obtain rfl := Option.some.inj (hs.symm.trans hs')
    obtain rfl := Option.some.inj (hb.symm.trans hb')
    obtain rfl := Option.some.inj (hn.symm.trans hn')
    exact (hbounds hhi).mp hin
  · intro hmeets
    have hhi : b.2 ≠ 0 := fun h0 => Nat.not_lt_zero _ (h0 ▸ hmeets.2)
    have hin := (hbounds hhi).mpr hmeets
    have hlt : b.1 < saturatingMul n s := by
      rw [lt_iff_toNat_lt, toNat_saturatingMul]
      have := hmeets.1
      omega
    have hsome := (chunkAxis_eq_some (ε := ε)).mpr ⟨s, b, n, hs, hb, hn, hs0, hhi, hlt, rfl,
      UInt64.le_trans hin.1 hin.2⟩
    exact ⟨_, ok.inj (h.symm.trans hsome), hin⟩

theorem chunkAxis_ok (hshape : d < chunkShape.length) (helements : d < elements.length)
    (hgrid : d < nPerDim.length) :
    ∃ r, (chunkAxis nPerDim chunkShape elements d : Except (Halt ε) _) = .ok r := by
  obtain ⟨s, hs⟩ := index_ok (ε := ε) hshape
  obtain ⟨b, hb⟩ := index_ok (ε := ε) helements
  obtain ⟨m, hm⟩ := index_ok (ε := ε) hgrid
  simp only [chunkAxis, hs, hb, hm, ok_bind]
  split_ifs <;> exact ⟨_, rfl⟩

/-- The box of chunks holds the chunks of the grid that meet the box of elements. -/
theorem chunkBox_contains_iff (hshape : chunkShape.length = nPerDim.length)
    (hzero : 0 ∉ chunkShape) (helements : elements.length = nPerDim.length)
    (hc : InGrid nPerDim c)
    (hlo : ∀ d < nPerDim.length, (nPerDim.getD d 0).toNat * (chunkShape.getD d 0).toNat < 2 ^ 64 ∨
      (elements.getD d (0, 0)).1.toNat < 2 ^ 64 - 1)
    {range : Option Box}
    (h : (chunkBox nPerDim chunkShape (some elements) : Except (Halt ε) _) = .ok range) :
    (∃ box, range = some box ∧ InBox box c) ↔ ∀ d < nPerDim.length,
      MeetsRange (elements.getD d (0, 0)) (chunkShape.getD d 0) (c.getD d 0) := by
  have haxis : ∀ d < nPerDim.length, ∀ r,
      (chunkAxis nPerDim chunkShape elements d : Except (Halt ε) _) = .ok r →
      ((∃ b, r = some b ∧ b.1 ≤ c.getD d 0 ∧ c.getD d 0 ≤ b.2) ↔
        MeetsRange (elements.getD d (0, 0)) (chunkShape.getD d 0) (c.getD d 0)) := by
    intro d hd r hr
    have hs := getElem?_eq_getD (a := 0) (hshape.symm ▸ hd : d < chunkShape.length)
    exact chunkAxis_contains_iff hs (fun h0 => hzero (h0 ▸ mem_of_getElem? hs))
      (getElem?_eq_getD (helements.symm ▸ hd)) (getElem?_eq_getD hd) (hc.getD_lt hd)
      (hlo d hd) hr
  have hbox : ∀ box : Box, InBox box c ↔ box.length = nPerDim.length ∧
      ∀ d < nPerDim.length, (box.getD d (0, 0)).1 ≤ c.getD d 0 ∧
        c.getD d 0 ≤ (box.getD d (0, 0)).2 := by
    intro box
    rw [InBox, forall₂_iff_getD (0, 0) 0, hc.length_eq]
    exact and_congr_right fun hlen => by rw [hlen]
  simp only [hbox]
  refine (collectSome_range_iff (P := fun d b => b.1 ≤ c.getD d 0 ∧ c.getD d 0 ≤ b.2) h).trans
    (forall₂_congr fun d hd => ?_)
  constructor
  · intro hall
    obtain ⟨r, hr⟩ := chunkAxis_ok (ε := ε) (hshape.symm ▸ hd : d < chunkShape.length)
      (helements.symm ▸ hd) hd
    exact (haxis d hd r hr).mp (hall r hr)
  · exact fun hmeets r hr => (haxis d hd r hr).mpr hmeets

theorem chunkBox_inGrid {elements : Option Box} {box : Box} (hzero : 0 ∉ nPerDim)
    (h : (chunkBox nPerDim chunkShape elements : Except (Halt ε) _) = .ok (some box)) :
    Forall₂ (fun n b => b.1 ≤ b.2 ∧ b.2.toNat < n.toNat) nPerDim box := by
  cases elements with
  | none => simp [chunkBox] at h
  | some elements =>
    obtain ⟨hlen, hall⟩ := collectSome_range (0, 0) h
    refine (forall₂_iff_getD 0 (0, 0)).mpr ⟨hlen.symm, fun d hd => ?_⟩
    obtain ⟨s, b, n, -, -, hn, -, -, -, hr, hle⟩ := chunkAxis_eq_some.mp (hall d hd)
    have hn0 : n ≠ 0 := fun h0 => hzero (h0 ▸ mem_of_getElem? hn)
    have hpos := toNat_pos hn0
    refine ⟨hle, ?_⟩
    rw [getD_eq_getElem?_getD (l := nPerDim), hn, Option.getD_some, hr, toNat_min,
      toNat_sub_one hn0]
    omega

theorem selectionChunkBounds_inGrid {sel : Selection} {box : Box} (hzero : 0 ∉ nPerDim)
    (h : (selectionChunkBounds sel nPerDim chunkShape : Except (Halt ε) _) = .ok (some box)) :
    Forall₂ (fun n b => b.1 ≤ b.2 ∧ b.2.toNat < n.toNat) nPerDim box := by
  cases sel with
  | all =>
    rw [selectionChunkBounds, ok.injEq, Option.some.injEq] at h
    rw [← h, forall₂_map_right_iff, forall₂_same]
    intro n hn
    have hn0 : n ≠ 0 := fun h0 => hzero (h0 ▸ hn)
    refine ⟨le_iff_toNat_le.mpr zero_le, ?_⟩
    rw [toNat_sub_one hn0]
    exact Nat.sub_lt (toNat_pos hn0) one_pos
  | none => simp [selectionChunkBounds] at h
  | hyperslab start stride count block =>
    rw [selectionChunkBounds, bind_ok_iff] at h
    obtain ⟨elements, -, h⟩ := h
    exact chunkBox_inGrid hzero h
  | points pts =>
    rw [selectionChunkBounds] at h
    by_cases hpts : pts = []
    · simp [hpts] at h
    · rw [if_neg hpts, bind_ok_iff] at h
      obtain ⟨elements, -, h⟩ := h
      exact chunkBox_inGrid hzero h

end

/-! ### The chunk of an element -/

section

variable {grid : ChunkGridParams} {paddedCount : ℕ} {e : List UInt64}
  {d : ℕ} {range : Option Box}

theorem ValidGrid.length_nChunksPerDim (h : ValidGrid grid paddedCount) :
    grid.nChunksPerDim.length = grid.dims.length := by
  rw [ChunkGridParams.nChunksPerDim, length_zipWith, ← h.length_eq, min_self]

theorem InGrid.lt_max (he : InGrid grid.dims e) (d : ℕ) : (e.getD d 0).toNat < 2 ^ 64 - 1 := by
  by_cases hd : d < grid.dims.length
  · have hlt := he.getD_lt hd
    have hword := (grid.dims.getD d 0).toNat_lt
    omega
  · rw [getD_eq_default _ _ (he.length_eq.le.trans (not_lt.mp hd))]
    decide

variable (h : ValidGrid grid paddedCount) (he : InGrid grid.dims e)
include h he

/-- What an element inside the dataspace means on one axis. -/
theorem ValidGrid.axis (hd : d < grid.dims.length) :
    grid.chunkShape.getD d 0 ≠ 0 ∧
      (chunkOf grid.chunkShape e)[d]? = some (e.getD d 0 / grid.chunkShape.getD d 0) ∧
      (e.getD d 0 / grid.chunkShape.getD d 0).toNat < (grid.nChunksPerDim.getD d 0).toNat := by
  have hs := getElem?_eq_getD (a := 0) (h.length_eq ▸ hd : d < grid.chunkShape.length)
  have hs0 : grid.chunkShape.getD d 0 ≠ 0 := fun h0 => h.ne_zero (h0 ▸ mem_of_getElem? hs)
  have hcount : grid.nChunksPerDim.getD d 0 =
      divCeil (grid.dims.getD d 0) (grid.chunkShape.getD d 0) := by
    rw [getD_eq_getElem?_getD, ChunkGridParams.nChunksPerDim, getElem?_zipWith,
      getElem?_eq_getD hd, hs]
    exact if_neg hs0
  refine ⟨hs0, ?_, ?_⟩
  · rw [chunkOf, getElem?_zipWith, getElem?_eq_getD (he.length_eq.symm ▸ hd), hs]
  · rw [hcount, lt_toNat_divCeil_iff hs0]
    exact (Nat.div_mul_le_self _ _).trans_lt (he.getD_lt hd)

theorem ValidGrid.inGrid_chunkOf :
    InGrid grid.nChunksPerDim (chunkOf grid.chunkShape e) := by
  refine inGrid_iff_getD.mpr ⟨?_, fun d hd => ?_⟩
  · rw [chunkOf, length_zipWith, he.length_eq, ← h.length_eq, min_self, h.length_nChunksPerDim]
  · obtain ⟨-, hc, hlt⟩ := h.axis he (h.length_nChunksPerDim ▸ hd)
    rwa [getD_eq_getElem?_getD, hc]

theorem ValidGrid.chunkBox_contains {elements : Box} (hlen : elements.length = grid.dims.length)
    (helements : ∀ d < grid.dims.length, RangeContains (elements.getD d (0, 0)) (e.getD d 0))
    (hbox : (chunkBox grid.nChunksPerDim grid.chunkShape (some elements) : Except (Halt ε) _) =
      .ok range) :
    ∃ box, range = some box ∧ InBox box (chunkOf grid.chunkShape e) := by
  have hgrid := h.length_nChunksPerDim
  refine (chunkBox_contains_iff (h.length_eq.symm.trans hgrid.symm) h.ne_zero
    (hlen.trans hgrid.symm) (h.inGrid_chunkOf he) (fun d hd => .inr ?_) hbox).mpr
    fun d hd => ?_
  all_goals rw [hgrid] at hd
  · exact (helements d hd).1.trans_lt (he.lt_max d)
  · obtain ⟨hs0, hc, -⟩ := h.axis he hd
    rw [getD_eq_getElem?_getD (l := chunkOf _ _), hc]
    exact (helements d hd).meetsRange hs0

end

/-! ### Chunks that meet the selection -/

section

variable {s x first : UInt64}

theorem chunkEnd_eq (s x : UInt64) : chunkEnd s x = x.toNat / s.toNat * s.toNat + s.toNat :=
  Nat.succ_mul _ _

theorem toNat_chunkStart (s x : UInt64) : (x / s * s).toNat = x.toNat / s.toNat * s.toNat := by
  rw [toNat_mul_of_lt] <;> rw [UInt64.toNat_div]
  exact lt_of_le_of_lt (Nat.div_mul_le_self _ _) x.toNat_lt

theorem toNat_wrappedEnd (s x : UInt64) : (x / s * s + s).toNat = chunkEnd s x % 2 ^ 64 := by
  rw [UInt64.toNat_add, toNat_chunkStart, chunkEnd_eq]

theorem lt_chunkEnd (hs0 : s ≠ 0) (x : UInt64) : x.toNat < chunkEnd s x := by
  rw [chunkEnd_eq]
  exact Nat.lt_div_mul_add (pos_of_ne_zero fun h0 => hs0 (UInt64.toNat_inj.mp h0))

/-- The computed end lies past the start of a hyperslab exactly when it did not wrap, or
wrapped past the start. -/
theorem lt_wrappedEnd_iff (hs0 : s ≠ 0) (hle : first.toNat ≤ x.toNat) :
    first < x / s * s + s ↔ chunkEnd s x < 2 ^ 64 ∨ first.toNat + 2 ^ 64 < chunkEnd s x := by
  have hpast := lt_chunkEnd hs0 x
  have hstart := Nat.div_mul_le_self x.toNat s.toNat
  have hx := x.toNat_lt
  have hs := s.toNat_lt
  rw [lt_iff_toNat_lt, toNat_wrappedEnd]
  have heq := chunkEnd_eq s x
  omega

/-- A coordinate is in the computed range of its chunk exactly when the end did not wrap. A
range whose end wrapped is empty. -/
theorem in_wrappedRange_iff (hs0 : s ≠ 0) {p : UInt64} (hp : p = x ∨ 2 ^ 64 ≤ chunkEnd s x) :
    (x / s * s ≤ p ∧ p < x / s * s + s) ↔ chunkEnd s x < 2 ^ 64 := by
  have hpast := lt_chunkEnd hs0 x
  have hstart := Nat.div_mul_le_self x.toNat s.toNat
  have hs := s.toNat_lt
  rw [lt_iff_toNat_lt, le_iff_toNat_le, toNat_wrappedEnd, toNat_chunkStart]
  have heq := chunkEnd_eq s x
  rcases hp with rfl | hp <;> omega

end

section

variable {sel : Selection} {grid : ChunkGridParams} {paddedCount : ℕ} {e : List UInt64}
  (hvalid : ValidGrid grid paddedCount) (he : InGrid grid.dims e)
include hvalid he

/-- The offset of the chunk of an element on one axis. -/
theorem ValidGrid.chunkOffset {d : ℕ} (hd : d < grid.dims.length) :
    (zipWith (· * ·) (chunkOf grid.chunkShape e) grid.chunkShape)[d]? =
      some (e.getD d 0 / grid.chunkShape.getD d 0 * grid.chunkShape.getD d 0) := by
  rw [getElem?_zipWith, (hvalid.axis he hd).2.1, getElem?_eq_getD (hvalid.length_eq ▸ hd)]

/-- The element box of an accepted selection leads to a chunk box around every element. -/
theorem selectionChunkBounds_contains (hsel : sel.Selects e) {range : Option Box}
    (h : (selectionChunkBounds sel grid.nChunksPerDim grid.chunkShape : Except (Halt ε) _) =
      .ok range) :
    ∃ box, range = some box ∧ InBox box (chunkOf grid.chunkShape e) := by
  have hlen := hvalid.length_nChunksPerDim
  cases sel with
  | all =>
    rw [selectionChunkBounds, ok.injEq] at h
    refine ⟨_, h.symm, ?_⟩
    rw [InBox, forall₂_map_left_iff]
    refine (hvalid.inGrid_chunkOf he).imp fun n c hlt => ?_
    have hn0 : n ≠ 0 := fun h0 => Nat.not_lt_zero _ (h0 ▸ hlt)
    rw [le_iff_toNat_le, le_iff_toNat_le, toNat_sub_one hn0]
    exact ⟨zero_le, Nat.le_sub_one_of_lt hlt⟩
  | none => exact hsel.elim
  | hyperslab start stride count block =>
    rw [selectionChunkBounds, bind_ok_iff, hlen] at h
    obtain ⟨elements, helements, h⟩ := h
    obtain ⟨box, rfl, hbox, hcontains⟩ := hyperslab_elements helements hsel he.length_eq he.lt_max
    exact hvalid.chunkBox_contains he hbox hcontains h
  | points pts =>
    have hne : pts ≠ [] := ne_nil_of_mem hsel
    rw [selectionChunkBounds, if_neg hne, bind_ok_iff, hlen] at h
    obtain ⟨elements, helements, h⟩ := h
    obtain ⟨box, rfl, hbox, hcontains⟩ := points_elements helements hsel he.lt_max
    exact hvalid.chunkBox_contains he hbox (fun d hd => (hcontains d hd).2) h

theorem hyperslab_meets_iff {start stride count block : List UInt64} {elements : Option Box}
    (hsel : (Selection.hyperslab start stride count block).Selects e)
    (helements : (collectSome (hyperslabAxis start stride count block)
      (range grid.dims.length) : Except (Halt ε) _) = .ok elements) :
    ((Selection.hyperslab start stride count block).intersectsChunk
      (zipWith (· * ·) (chunkOf grid.chunkShape e) grid.chunkShape) grid.chunkShape :
      Except (Halt ε) _) = .ok true ↔ AxesFit grid (.hyperslab start stride count block) e := by
  have hstart : start.length = grid.dims.length := hsel.1.symm.trans he.length_eq
  obtain ⟨box, rfl, -, hcontains⟩ := hyperslab_elements helements hsel he.length_eq he.lt_max
  have hall := (collectSome_range (0, 0) helements).2
  rw [Selection.intersectsChunk, every_eq_ok_true, hstart, AxesFit]
  simp only [mem_range]
  refine forall₂_congr fun d hd => ?_
  obtain ⟨⟨hcount, hblock, hfirst, hstride⟩, hn0, -, hrange⟩ := hyperslabAxis_eq_some.mp (hall d hd)
  obtain ⟨hlo, hhi⟩ := hcontains d hd
  rw [hrange] at hlo hhi
  have hshape : d < grid.chunkShape.length := hvalid.length_eq ▸ hd
  have hoffset := (index_eq_ok (ε := ε)).mpr (hvalid.chunkOffset he hd)
  -- the chunk starts before the end of the selection, so only its own end decides
  have hbefore : ¬ e.getD d 0 / grid.chunkShape.getD d 0 * grid.chunkShape.getD d 0 ≥
      (hyperslabRange start stride count block d).2 := by
    rw [ge_iff_le, le_iff_toNat_le, toNat_chunkStart, not_le]
    exact lt_of_le_of_lt (Nat.div_mul_le_self _ _) hhi
  rw [hyperslabRange] at hbefore
  simp only [Selection.axisOverlaps, hoffset, index_eq_ite, if_pos hshape, if_pos hfirst,
    if_pos hcount, if_pos hstride, if_pos hblock, ok_bind, if_neg hn0, hbefore, decide_false,
    Bool.or_false, ok.injEq, Bool.not_eq_true', decide_eq_false_iff_not, UInt64.not_le]
  exact lt_wrappedEnd_iff (hvalid.axis he hd).1 hlo

theorem points_meets_iff {pts : List (List UInt64)} (hsel : e ∈ pts)
    (hlong : ∀ d < grid.dims.length, ∀ pt ∈ pts, d < pt.length) :
    ((Selection.points pts).intersectsChunk
      (zipWith (· * ·) (chunkOf grid.chunkShape e) grid.chunkShape) grid.chunkShape :
      Except (Halt ε) _) = .ok true ↔ AxesFit grid (.points pts) e := by
  have hshape : ∀ {d}, d < grid.dims.length → d < grid.chunkShape.length :=
    fun hd => hvalid.length_eq ▸ hd
  simp only [Selection.intersectsChunk, ok.injEq, any_eq_true, all_eq_true,
    Bool.and_eq_true, decide_eq_true_eq]
  constructor
  · rintro ⟨pt, hpt, hmeets⟩ d hd
    by_contra hwrap
    refine hwrap ((in_wrappedRange_iff (hvalid.axis he hd).1 (p := pt.getD d 0)
      (.inr (not_lt.mp hwrap))).mp (hmeets (_, _, _) (mem_of_getElem? (i := d) ?_)))
    rw [getElem?_zip_eq_some, getElem?_zip_eq_some]
    exact ⟨getElem?_eq_getD (hlong d hd pt hpt), hvalid.chunkOffset he hd,
      getElem?_eq_getD (hshape hd)⟩
  · intro hfit
    refine ⟨e, hsel, fun z hz => ?_⟩
    obtain ⟨d, hd⟩ := mem_iff_getElem?.mp hz
    rw [getElem?_zip_eq_some, getElem?_zip_eq_some] at hd
    obtain ⟨hze, hzo, hzs⟩ := hd
    have hdims : d < grid.dims.length := he.length_eq ▸ lt_of_getElem? hze
    rw [getElem?_eq_getD (hshape hdims), Option.some.injEq] at hzs
    rw [hvalid.chunkOffset he hdims, Option.some.injEq] at hzo
    rw [getElem?_eq_getD (he.length_eq.symm ▸ hdims), Option.some.injEq] at hze
    rw [← hzs, ← hzo, ← hze]
    exact (in_wrappedRange_iff (hvalid.axis he hdims).1 (.inl rfl)).mpr (hfit d hdims)

/-- The chunk of a selected element is found to meet the selection exactly when the ends
fit. -/
theorem intersectsChunk_iff (hsel : sel.Selects e) {range : Option Box}
    (h : (selectionChunkBounds sel grid.nChunksPerDim grid.chunkShape : Except (Halt ε) _) =
      .ok range) :
    (sel.intersectsChunk
      (zipWith (· * ·) (chunkOf grid.chunkShape e) grid.chunkShape) grid.chunkShape :
      Except (Halt ε) _) = .ok true ↔ AxesFit grid sel e := by
  cases sel with
  | all => exact iff_of_true rfl trivial
  | none => exact hsel.elim
  | hyperslab start stride count block =>
    rw [selectionChunkBounds, bind_ok_iff, hvalid.length_nChunksPerDim] at h
    obtain ⟨elements, helements, -⟩ := h
    exact hyperslab_meets_iff hvalid he hsel helements
  | points pts =>
    have hne : pts ≠ [] := ne_nil_of_mem hsel
    rw [selectionChunkBounds, if_neg hne, bind_ok_iff, hvalid.length_nChunksPerDim] at h
    obtain ⟨elements, helements, -⟩ := h
    obtain ⟨box, -, -, hbox⟩ := points_elements helements hsel he.lt_max
    exact points_meets_iff hvalid he hsel fun d hd => (hbox d hd).1

end
/-! ### The expected set -/

section

variable {sel : Selection} {grid : ChunkGridParams} {order : LeafOrder} {e : List UInt64}
  {indices : List UInt64}

section

variable (h : computeExpectedChunkIndices grid sel order = .ok indices)
include h

/-- What a successful computation of the expected set did. -/
theorem computeExpectedChunkIndices_eq_ok :
    ∃ paddedCount coords, checkedPaddedLeafCount grid = .ok paddedCount ∧
      checkOrderBitBudget grid.nChunksPerDim order = .ok () ∧
      (chunkCoordsForSelection sel grid.nChunksPerDim grid.chunkShape :
        Except (Halt MerkleError) _) = .ok coords ∧
      indices = sortDedup (· ≤ ·)
        (coords.map fun c => coordToLeafIndex c grid.nChunksPerDim order) := by
  unfold computeExpectedChunkIndices at h
  split at h
  · exact absurd h (by simp)
  · simp only [bind_ok_iff, returning_eq_ok, ok.injEq] at h
    obtain ⟨paddedCount, hpadded, ⟨⟩, hbudget, coords, hcoords, rfl⟩ := h
    exact ⟨paddedCount, coords, hpadded, hbudget, hcoords, rfl⟩

theorem nodup_of_computeExpectedChunkIndices : indices.Nodup := by
  obtain ⟨-, -, -, -, -, rfl⟩ := computeExpectedChunkIndices_eq_ok h
  exact nodup_sortDedup _

theorem sorted_of_computeExpectedChunkIndices : indices.Pairwise (· ≤ ·) := by
  obtain ⟨-, -, -, -, -, rfl⟩ := computeExpectedChunkIndices_eq_ok h
  exact (pairwise_sortDedup _).imp And.left

end

/-- A box inside the grid can be swept. -/
theorem box_bounds {nPerDim : List UInt64} {box : Box}
    (h : Forall₂ (fun n b => b.1 ≤ b.2 ∧ b.2.toNat < n.toNat) nPerDim box) :
    Bounded box := by
  intro b hb
  obtain ⟨d, hd⟩ := mem_iff_getElem?.mp hb
  obtain ⟨hlen, hall⟩ := forall₂_iff_getElem?.mp h
  have hd' : d < nPerDim.length := hlen ▸ lt_of_getElem? hd
  obtain ⟨hle, hlt⟩ := hall d _ _ (getElem?_eq_getElem hd') hd
  refine ⟨hle, lt_iff_toNat_lt.mpr ?_⟩
  have := nPerDim[d].toNat_lt
  rw [toNat_maxU64]
  omega

/-- A position of a box inside the grid is a chunk of the grid. -/
theorem inGrid_of_inBox {nPerDim c : List UInt64} {box : Box}
    (h : Forall₂ (fun n b => b.1 ≤ b.2 ∧ b.2.toNat < n.toNat) nPerDim box)
    (hc : InBox box c) : InGrid nPerDim c := by
  obtain ⟨hlen, hall⟩ := forall₂_iff_getElem?.mp h
  obtain ⟨hlen', hall'⟩ := forall₂_iff_getElem?.mp hc
  refine forall₂_iff_getElem?.mpr ⟨hlen.trans hlen', fun d n x hn hx => ?_⟩
  have hb := getElem?_eq_getElem (hlen' ▸ (lt_of_getElem? hx) : d < box.length)
  exact lt_of_le_of_lt (le_iff_toNat_le.mp (hall' d _ x hb hx).2) (hall d n _ hn hb).2

/-- The chunks that are found are chunks of the grid, in the box and meet the selection. -/
theorem mem_chunkCoordsForSelection {nPerDim chunkShape : List UInt64}
    {coords : List (List UInt64)} (hrank : nPerDim.length ≠ 0) (hzero : 0 ∉ nPerDim)
    (h : (chunkCoordsForSelection sel nPerDim chunkShape : Except (Halt ε) _) = .ok coords) :
    ∃ range, (selectionChunkBounds sel nPerDim chunkShape : Except (Halt ε) _) = .ok range ∧
      (∀ c ∈ coords, InGrid nPerDim c) ∧
      ∀ box, range = some box → ∀ c, c ∈ coords ↔ InBox box c ∧
        (sel.intersectsChunk (zipWith (· * ·) c chunkShape) chunkShape :
          Except (Halt ε) _) = .ok true := by
  rw [chunkCoordsForSelection, if_neg (not_or.mpr ⟨hrank, hzero⟩), bind_ok_iff] at h
  obtain ⟨range, hrange, h⟩ := h
  refine ⟨range, hrange, ?_⟩
  cases range with
  | none =>
    obtain rfl := ok.inj h
    exact ⟨fun c hc => absurd hc not_mem_nil, fun box hbox => absurd hbox (by simp)⟩
  | some box =>
    have hgrid := selectionChunkBounds_inGrid hzero hrange
    have hbox := box_bounds hgrid
    have hmem : ∀ c, c ∈ coords ↔ InBox box c ∧ (sel.intersectsChunk
        (zipWith (· * ·) c chunkShape) chunkShape : Except (Halt ε) _) = .ok true :=
      fun c => (mem_of_keep h).trans (and_congr_left fun _ => mem_sweep hbox)
    exact ⟨fun c hc => inGrid_of_inBox hgrid ((hmem c).mp hc).1,
      fun box' hbox' => Option.some.inj hbox' ▸ hmem⟩

theorem lt_chunkTotal_of_mem (h : computeExpectedChunkIndices grid sel .rowMajor = .ok indices)
    {i : UInt64} (hi : i ∈ indices) : i.toNat < grid.chunkTotal := by
  obtain ⟨paddedCount, coords, hpadded, -, hcoords, rfl⟩ := computeExpectedChunkIndices_eq_ok h
  have hvalid := validGrid_of_checked hpadded
  obtain ⟨c, hc, rfl⟩ := mem_map.mp (mem_sortDedup.mp hi)
  have hprod : (grid.nChunksPerDim.map toNat).prod < 2 ^ 64 :=
    lt_of_le_of_lt (hvalid.chunkTotal_le.trans hvalid.paddedCount_le) (by decide)
  by_cases hempty : grid.nChunksPerDim.length = 0 ∨ 0 ∈ grid.nChunksPerDim
  · rw [chunkCoordsForSelection, if_pos hempty] at hcoords
    exact absurd (ok.inj hcoords ▸ hc) not_mem_nil
  · obtain ⟨hrank, hzero⟩ := not_or.mp hempty
    obtain ⟨-, -, hgrid, -⟩ := mem_chunkCoordsForSelection hrank hzero hcoords
    exact rowMajorIndex_lt (hgrid c hc) hprod

/-! ### Selections that are answered -/

section

variable {start stride count block nPerDim chunkShape : List UInt64} {elements : Box} {d n : ℕ}

theorem hyperslabAxis_ok
    (h : (Selection.hyperslab start stride count block).HasRank n) (hd : d < n) :
    ∃ r, (hyperslabAxis start stride count block d : Except (Halt ε) _) = .ok r := by
  obtain ⟨hstart, hstride, hcount, hblock⟩ := h
  rw [hyperslabAxis_eq]
  split_ifs with hempty hlong
  · exact ⟨_, rfl⟩
  · exact ⟨_, rfl⟩
  · omega

section

variable (hshape : chunkShape.length = nPerDim.length)
  {f : ℕ → Except (Halt ε) (Option (UInt64 × UInt64))}
include hshape

/-- The box collected over the axes of a grid has a box of chunks. -/
theorem chunkBox_collected_ok {elements : Option Box}
    (h : collectSome f (range nPerDim.length) = .ok elements) :
    ∃ r, (chunkBox nPerDim chunkShape elements : Except (Halt ε) _) = .ok r := by
  cases elements with
  | none => exact ⟨_, rfl⟩
  | some box =>
    have hlen := (collectSome_range (0, 0) h).1
    refine collectSome_ok fun d hd => ?_
    rw [mem_range] at hd
    exact chunkAxis_ok (hshape.symm ▸ hd) (hlen.symm ▸ hd) hd

theorem chunkBox_axes_ok (h : ∀ d < nPerDim.length, ∃ r, f d = .ok r) :
    ∃ elements r, collectSome f (range nPerDim.length) = .ok elements ∧
      (chunkBox nPerDim chunkShape elements : Except (Halt ε) _) = .ok r := by
  obtain ⟨elements, helements⟩ := collectSome_ok fun d hd => h d (mem_range.mp hd)
  obtain ⟨r, hr⟩ := chunkBox_collected_ok hshape helements
  exact ⟨elements, r, helements, hr⟩

end

theorem pointsAxis_ok {pts : List (List UInt64)} (h : ∀ pt ∈ pts, d < pt.length) :
    ∃ r, (pointsAxis pts d : Except (Halt ε) _) = .ok r :=
  ⟨_, pointsAxis_eq.trans (if_pos h)⟩

/-- A selection of the grid's rank has chunk bounds. -/
theorem selectionChunkBounds_ok (hshape : chunkShape.length = nPerDim.length)
    (hrank : sel.HasRank nPerDim.length) :
    ∃ r, (selectionChunkBounds sel nPerDim chunkShape : Except (Halt ε) _) = .ok r := by
  cases sel with
  | all => exact ⟨_, rfl⟩
  | none => exact ⟨_, rfl⟩
  | hyperslab start stride count block =>
    obtain ⟨elements, r, helements, hr⟩ := chunkBox_axes_ok (ε := ε) hshape fun d hd =>
      hyperslabAxis_ok hrank hd
    exact ⟨r, by rw [selectionChunkBounds, helements, ok_bind, hr]⟩
  | points pts =>
    by_cases hpts : pts = []
    · exact ⟨_, by rw [selectionChunkBounds, if_pos hpts]⟩
    · obtain ⟨elements, r, helements, hr⟩ := chunkBox_axes_ok (ε := ε) hshape fun d hd =>
        pointsAxis_ok fun pt hpt => (hrank pt hpt).symm ▸ hd
      exact ⟨r, by rw [selectionChunkBounds, if_neg hpts, helements, ok_bind, hr]⟩

/-- The test on a hyperslab reads each vector on the axes of the starts. -/
theorem intersectsChunk_hyperslab_ok {offset : List UInt64}
    (h : ∀ l ∈ [offset, chunkShape, stride, count, block], start.length ≤ l.length) :
    ∃ b, ((Selection.hyperslab start stride count block).intersectsChunk offset chunkShape :
      Except (Halt ε) _) = .ok b := by
  refine every_ok fun d hd => ?_
  have hread : ∀ l ∈ [offset, chunkShape, stride, count, block], d < l.length :=
    fun l hl => (mem_range.mp hd).trans_le (h l hl)
  simp only [forall_mem_cons] at hread
  obtain ⟨ho, hs, ht, hc, hb, -⟩ := hread
  simp only [Selection.axisOverlaps, index_eq_ite, if_pos hc, if_pos (mem_range.mp hd), ok_bind]
  split_ifs <;> exact ⟨_, rfl⟩

theorem intersectsChunk_ok (hrank : sel.HasRank n) {offset : List UInt64}
    (hoffset : offset.length = n) (hshape : chunkShape.length = n) :
    ∃ b, (sel.intersectsChunk offset chunkShape : Except (Halt ε) _) = .ok b := by
  cases sel with
  | all => exact ⟨_, rfl⟩
  | none => exact ⟨_, rfl⟩
  | points pts => exact ⟨_, rfl⟩
  | hyperslab start stride count block =>
    obtain ⟨hstart, hstride, hcount, hblock⟩ := hrank
    apply intersectsChunk_hyperslab_ok
    simp [hstart, hoffset, hshape, hstride, hcount, hblock]

/-- On an acceptable grid within the bit budget a selection of the grid's rank is answered:
there is no error and no panic. -/
theorem computeExpectedChunkIndices_ok {paddedCount : ℕ}
    (hpadded : checkedPaddedLeafCount grid = .ok paddedCount)
    (hbudget : checkOrderBitBudget grid.nChunksPerDim order = .ok ())
    (hrank : sel.HasRank grid.dims.length) :
    ∃ indices, computeExpectedChunkIndices grid sel order = .ok indices := by
  have hvalid := validGrid_of_checked hpadded
  have hlen := hvalid.length_nChunksPerDim
  have hcoords : ∃ coords, (chunkCoordsForSelection sel grid.nChunksPerDim grid.chunkShape :
      Except (Halt MerkleError) _) = .ok coords := by
    unfold chunkCoordsForSelection
    by_cases hempty : grid.nChunksPerDim.length = 0 ∨ 0 ∈ grid.nChunksPerDim
    · exact ⟨_, if_pos hempty⟩
    · rw [if_neg hempty]
      obtain ⟨range, hrange⟩ := selectionChunkBounds_ok (ε := MerkleError)
        (hvalid.length_eq.symm.trans hlen.symm) (hlen.symm ▸ hrank)
      rw [hrange]
      cases range with
      | none => exact ⟨_, rfl⟩
      | some box =>
        have hzero := (not_or.mp hempty).2
        have hin := selectionChunkBounds_inGrid hzero hrange
        refine ⟨_, keep_eq_ok.mpr ⟨fun c hc => ?_, rfl⟩⟩
        have hc' := (Forall₂.length_eq ((mem_sweep (box_bounds hin)).mp hc)).symm
        refine intersectsChunk_ok hrank ?_ hvalid.length_eq.symm
        rw [length_zipWith, hc', ← (Forall₂.length_eq hin), hvalid.length_nChunksPerDim,
          ← hvalid.length_eq, min_self]
  obtain ⟨coords, hcoords⟩ := hcoords
  have hfilter : sel.rank.filter (fun r => r ≠ grid.dims.length) = none := by
    cases sel with
    | all => rfl
    | none => rfl
    | hyperslab start stride count block => simp [Selection.rank, hrank.1]
    | points pts =>
      cases pts with
      | nil => rfl
      | cons pt pts => simp [Selection.rank, hrank pt mem_cons_self]
  simp only [computeExpectedChunkIndices, hfilter, hpadded, hbudget, hcoords]
  exact ⟨_, rfl⟩

end

/-- An accepted selection expects the chunk of a selected element exactly when the grid has an
axis and the chunk ends fit: a chunk end of `2 ^ 64` or more makes the chunk drop out. -/
theorem mem_computeExpectedChunkIndices_iff
    (h : computeExpectedChunkIndices grid sel order = .ok indices) (he : InGrid grid.dims e)
    (hsel : sel.Selects e) :
    coordToLeafIndex (chunkOf grid.chunkShape e) grid.nChunksPerDim order ∈ indices ↔
      EndsFit grid sel e := by
  obtain ⟨paddedCount, coords, hpadded, hbudget, hcoords, rfl⟩ :=
    computeExpectedChunkIndices_eq_ok h
  have hvalid := validGrid_of_checked hpadded
  rw [mem_sortDedup, EndsFit]
  by_cases hrank : grid.dims.length = 0
  · have hnil : coords = [] := by
      rw [chunkCoordsForSelection, hvalid.length_nChunksPerDim, if_pos (.inl hrank)] at hcoords
      exact (ok.inj hcoords).symm
    simp [hnil, hrank]
  · have hchunk := hvalid.inGrid_chunkOf he
    have hzero : 0 ∉ grid.nChunksPerDim := hchunk.zero_notMem
    obtain ⟨range, hrange, hgrid, hmem⟩ :=
      mem_chunkCoordsForSelection (hvalid.length_nChunksPerDim ▸ hrank) hzero hcoords
    obtain ⟨box, hbox, hin⟩ := selectionChunkBounds_contains hvalid he hsel hrange
    have hprod : (grid.nChunksPerDim.map toNat).prod < 2 ^ 64 :=
      lt_of_le_of_lt (hvalid.chunkTotal_le.trans hvalid.paddedCount_le) (by decide)
    -- no other chunk has the same leaf index
    have hindex : coordToLeafIndex (chunkOf grid.chunkShape e) grid.nChunksPerDim order ∈
        coords.map (fun c => coordToLeafIndex c grid.nChunksPerDim order) ↔
        chunkOf grid.chunkShape e ∈ coords := by
      refine ⟨fun h => ?_, fun h => mem_map_of_mem h⟩
      obtain ⟨c, hc, heq⟩ := mem_map.mp h
      rwa [← coordToLeafIndex_inj hbudget (fun _ => hprod) (hgrid c hc) hchunk heq]
    rw [hindex, hmem box hbox, intersectsChunk_iff hvalid he hsel hrange]
    exact ⟨fun h => ⟨Nat.pos_of_ne_zero hrank, h.2⟩, fun h => ⟨hin, h.2⟩⟩

end

def fourChunks : ChunkGridParams := ⟨.chunked, [4, 4], [2, 2], 4, zeroHash⟩

/-- The middle four elements of `fourChunks`. -/
def middle : Selection := .hyperslab [1, 1] [1, 1] [1, 1] [2, 2]

theorem mem_computeExpectedChunkIndices_iff_middle :
    computeExpectedChunkIndices fourChunks middle .hilbert = .ok [0, 1, 2, 3] ∧
      InGrid fourChunks.dims [2, 1] ∧ middle.Selects [2, 1] ∧
      (coordToLeafIndex (chunkOf fourChunks.chunkShape [2, 1]) fourChunks.nChunksPerDim .hilbert ∈
        [0, 1, 2, 3] ↔ EndsFit fourChunks middle [2, 1]) := by
  have hexpected : computeExpectedChunkIndices fourChunks middle .hilbert = .ok [0, 1, 2, 3] := by
    decide +kernel
  have hin : InGrid fourChunks.dims [2, 1] := .cons (by decide) (.cons (by decide) .nil)
  have hsel : middle.Selects [2, 1] := by
    refine ⟨rfl, fun d hd => ?_⟩
    match d, hd with
    | 0, _ => exact ⟨0, 1, by decide, by decide, by decide⟩
    | 1, _ => exact ⟨0, 0, by decide, by decide, by decide⟩
  exact ⟨hexpected, hin, hsel, mem_computeExpectedChunkIndices_iff hexpected hin hsel⟩

/-- Two chunks, the second of which ends at `2 ^ 64`. -/
def topChunk : ChunkGridParams :=
  ⟨.chunked, [0xffffffffffffffff], [0x8000000000000000], 1, zeroHash⟩

/-- The first element of the second chunk of `topChunk`. -/
def topElement : Selection := .hyperslab [0x8000000000000000] [1] [1] [1]

/-- A grid without axes. It has one chunk, with one element. -/
def scalarGrid : ChunkGridParams := ⟨.chunked, [], [], 1, zeroHash⟩

theorem computeExpectedChunkIndices_omits :
    (computeExpectedChunkIndices topChunk topElement .rowMajor = .ok [] ∧
      InGrid topChunk.dims [0x8000000000000000] ∧ topElement.Selects [0x8000000000000000]) ∧
    (computeExpectedChunkIndices scalarGrid .all .rowMajor = .ok [] ∧
      checkedPaddedLeafCount scalarGrid = .ok 1 ∧
      InGrid scalarGrid.dims [] ∧ Selection.all.Selects []) := by
  refine ⟨⟨by decide +kernel, .cons (by decide) .nil, rfl, fun d hd => ?_⟩, by decide +kernel,
    by decide +kernel, .nil, trivial⟩
  match d, hd with
  | 0, _ => exact ⟨0, 0, by decide, by decide, by decide⟩

end ClawHdf5.Subset
