import ClawHdf5.Math.Tiling
import ClawHdf5.Subset.Grid

/-!
# Verification grids

A contiguous dataset has no chunks, so its leaves are cut out of the byte stream. The grid takes the
fastest axes whole, splits one axis into tiles of about the target size, and takes single elements
on the slower axes. Each tile is then one run of bytes, and the runs follow each other.
-/

namespace ClawHdf5.Subset

open Fallible MachineInt Tiling List UInt64 Nat

variable {ε : Type}
variable {grid dims : List UInt64} {elemSize : UInt32}

/-- Arithmetic in words of 128 bits. -/
def wrap128 (n : ℕ) : ℕ := n % 2 ^ 128

theorem wrap128_of_lt {n : ℕ} (h : n < 2 ^ 128) : wrap128 n = n := mod_eq_of_lt h

/-! ### Choosing the grid -/

/-- Walk the axes from the fastest one on and split the first that would make a leaf too large. The
axes to come are listed fastest first; `faster` are those that were taken whole. -/
def splitAxis (target : ℕ) : ℕ → List UInt64 → List UInt64 → Option (List UInt64)
  | _, [], _ => none
  | running, extent :: slower, faster =>
    let sizeIfFull := wrap128 (running * extent.toNat)
    if wrap128 (target * target) < wrap128 (2 * sizeIfFull * sizeIfFull) then
      let numParts := max (sizeIfFull ⌈/⌉ target) 1
      let tileExtent := extent.toNat ⌈/⌉ numParts
      some (slower.map (fun _ => 1) ++ UInt64.ofNat tileExtent :: faster)
    else splitAxis target sizeIfFull slower (extent :: faster)

/-- The grid of leaves of a contiguous dataset, or `none` for a single leaf. -/
def verificationGrid (dims : List UInt64) (elemSize : UInt32) (targetBytes : UInt64) :
    Option (List UInt64) :=
  if dims.length = 0 ∨ targetBytes = 0 ∨ elemSize = 0 then none
  else
    let target := targetBytes.toNat
    let elem := elemSize.toNat
    let total := dims.foldl (fun acc n => wrap128 (acc * n.toNat)) elem
    -- at most `target * √2` bytes stay one leaf
    if wrap128 (total * total) ≤ wrap128 (2 * target * target) then none
    else splitAxis target elem dims.reverse []

/-- The grid that is used: the whole dataset is one leaf where no other grid is chosen. -/
def tileShape (dims : List UInt64) (elemSize : UInt32) (targetBytes : UInt64) : List UInt64 :=
  (verificationGrid dims elemSize targetBytes).getD dims

/-! ### Leaf ranges -/

/-- The coordinates of a tile, and what is left of its index behind the slowest axis. -/
def tileCoords : List UInt64 → UInt64 → List UInt64 × UInt64
  | [], rem => ([], rem)
  | n :: nTiles, rem =>
    let (coords, rem) := tileCoords nTiles rem
    (rem % n :: coords, rem / n)

/-- One axis of a run: its first element, its length and the size of the axes so far. The axis has
a coordinate, a tile extent and an extent. -/
def runStep (axis : UInt64 × UInt64 × UInt64) (acc : ℕ × ℕ × ℕ) : ℕ × ℕ × ℕ :=
  let (coord, tile, dim) := axis
  let axisStart := coord * tile
  (wrap128 (acc.1 + axisStart.toNat * acc.2.2),
    wrap128 (acc.2.1 * (min tile (dim - axisStart)).toNat), wrap128 (acc.2.2 * dim.toNat))

/-- The number of tiles on each axis. -/
def nTiles (grid dims : List UInt64) : List UInt64 :=
  zipWith (fun d g => divCeil d (max g 1)) dims grid

/-- The byte range of leaf `idx`. A grid with fewer axes than the dataset, or an axis without tiles,
panics. -/
def leafByteRange (grid dims : List UInt64) (elemSize : UInt32) (idx : UInt64) :
    Except (Halt ε) (UInt64 × UInt64) :=
  if grid.length < dims.length ∨ 0 ∈ nTiles grid dims then .error .panic
  else
    let coords := (tileCoords (nTiles grid dims) idx).1
    let run := (coords.zip (grid.zip dims)).foldr runStep (0, 1, 1)
    let start := UInt64.ofNat (wrap128 (run.1 * elemSize.toNat))
    let len := UInt64.ofNat (wrap128 (run.2.1 * elemSize.toNat))
    .ok (start, start + len)

/-! ### The shape of a grid -/

/-- A grid with single elements on the slow axes, one axis in tiles and the fast axes whole. -/
def Pivoted (dims grid : List UInt64) : Prop :=
  ∃ slower n faster t, dims = slower ++ n :: faster ∧
    grid = slower.map (fun _ => 1) ++ t :: faster ∧ 0 < t.toNat ∧ t.toNat ≤ n.toNat

/-- The tiles of the axis that is split. -/
theorem toNat_tileExtent {extent : UInt64} {numParts : ℕ} (hpos : 0 < extent.toNat)
    (hparts : 0 < numParts) :
    (ofNat (extent.toNat ⌈/⌉ numParts)).toNat = extent.toNat ⌈/⌉ numParts ∧
      0 < extent.toNat ⌈/⌉ numParts ∧ extent.toNat ⌈/⌉ numParts ≤ extent.toNat := by
  have hle : extent.toNat ⌈/⌉ numParts ≤ extent.toNat := by
    rw [ceilDiv_le_iff_le_mul hparts]
    exact Nat.le_mul_of_pos_left _ hparts
  have hne : 0 < extent.toNat ⌈/⌉ numParts := by
    by_contra h0
    have hcover : extent.toNat ≤ numParts * (extent.toNat ⌈/⌉ numParts) := le_smul_ceilDiv hparts
    rw [Nat.eq_zero_of_not_pos h0] at hcover
    omega
  exact ⟨toNat_ofNat_of_lt' (hle.trans_lt extent.toNat_lt), hne, hle⟩

/-- The bytes of a leaf that takes the axes of a list whole, in words of 128 bits. -/
def wholeBytes (running : ℕ) (axes : List UInt64) : ℕ :=
  axes.foldl (fun size n => wrap128 (size * n.toNat)) running

/-- Where the walk stops: the axes taken whole keep a leaf small enough, one more would not. -/
theorem splitAxis_eq_some {target running : ℕ} {axes faster : List UInt64}
    (h : splitAxis target running axes faster = some grid) :
    ∃ (taken : List UInt64) (n : UInt64) (slower : List UInt64) (size : ℕ),
      axes = taken ++ n :: slower ∧ size = wrap128 (wholeBytes running taken * n.toNat) ∧
      grid = slower.map (fun _ => 1) ++
        ofNat (n.toNat ⌈/⌉ max (size ⌈/⌉ target) 1) :: (taken.reverse ++ faster) ∧
      wrap128 (target * target) < wrap128 (2 * size * size) ∧
      (taken ≠ [] → wrap128 (2 * wholeBytes running taken * wholeBytes running taken) ≤
        wrap128 (target * target)) := by
  induction axes generalizing running faster with
  | nil => exact absurd h (by simp [splitAxis])
  | cons extent slower ih =>
    rw [splitAxis] at h
    split_ifs at h with hlarge
    · exact ⟨[], extent, slower, _, rfl, rfl, (Option.some.inj h).symm, hlarge,
        fun hne => absurd rfl hne⟩
    · obtain ⟨taken, n, rest, size, haxes, hsize, hgrid, hsplit, hsmall⟩ := ih h
      refine ⟨extent :: taken, n, rest, size, by rw [haxes]; rfl, hsize, ?_, hsplit, fun _ => ?_⟩
      · rw [hgrid, reverse_cons, append_assoc, singleton_append]
      · cases taken with
        | nil => exact not_lt.mp hlarge
        | cons d taken => exact hsmall (cons_ne_nil _ _)

theorem verificationGrid_eq_some {targetBytes : UInt64}
    (h : verificationGrid dims elemSize targetBytes = some grid) :
    targetBytes ≠ 0 ∧
      splitAxis targetBytes.toNat elemSize.toNat dims.reverse [] = some grid := by
  unfold verificationGrid at h
  dsimp only at h
  split_ifs at h with hnone hsmall
  exact ⟨fun h0 => hnone (.inr (.inl h0)), h⟩

/-- Every grid that is used has a pivot. -/
theorem tileShape_pivoted (hdims : dims ≠ []) (hpos : 0 ∉ dims) (elemSize : UInt32)
    (targetBytes : UInt64) :
    Pivoted dims (tileShape dims elemSize targetBytes) := by
  have hextent : ∀ d ∈ dims, 0 < d.toNat := fun d hd => toNat_pos fun h0 => hpos (h0 ▸ hd)
  unfold tileShape
  cases hgrid : verificationGrid dims elemSize targetBytes with
  | none =>
    -- one tile on the slowest axis
    obtain ⟨n, faster, rfl⟩ := exists_cons_of_ne_nil hdims
    exact ⟨[], n, faster, n, rfl, rfl, hextent n mem_cons_self, le_rfl⟩
  | some grid =>
    obtain ⟨-, hsplit⟩ := verificationGrid_eq_some hgrid
    obtain ⟨taken, n, slower, size, haxes, -, rfl, -, -⟩ := splitAxis_eq_some hsplit
    have hshape : dims = slower.reverse ++ n :: taken.reverse := by
      rw [← reverse_reverse dims, haxes]
      simp
    have hn := hextent n (by rw [hshape]; simp)
    obtain ⟨htile, htilePos, hle⟩ := toNat_tileExtent hn
      (lt_of_lt_of_le one_pos (le_max_right (size ⌈/⌉ targetBytes.toNat) 1))
    refine ⟨slower.reverse, n, taken.reverse, _, hshape, ?_, by rwa [htile], by rwa [htile]⟩
    rw [Option.getD_some, append_nil, map_reverse, map_const', reverse_replicate]

/-! ### Tiles of such a grid -/

section

variable {slower faster : List UInt64} {n t : UInt64}

theorem tileCoords_append (xs ys : List UInt64) (rem : UInt64) : tileCoords (xs ++ ys) rem =
      ((tileCoords xs (tileCoords ys rem).2).1 ++ (tileCoords ys rem).1,
        (tileCoords xs (tileCoords ys rem).2).2) := by
  induction xs with
  | nil => rfl
  | cons x xs ih => rw [cons_append, tileCoords, ih, tileCoords, cons_append]

theorem length_tileCoords (xs : List UInt64) (rem : UInt64) :
    (tileCoords xs rem).1.length = xs.length := by
  induction xs with
  | nil => rfl
  | cons x xs ih => rw [tileCoords, length_cons, length_cons, ih]

theorem tileCoords_ones (xs : List UInt64) (rem : UInt64) :
    tileCoords (xs.map fun _ => 1) rem = (xs.map fun _ => 0, rem) := by
  induction xs with
  | nil => rfl
  | cons x xs ih =>
    rw [map_cons, tileCoords, ih, map_cons]
    dsimp only
    rw [UInt64.mod_one, UInt64.div_one]

theorem divCeil_one (a : UInt64) : divCeil a 1 = a := by
  rw [divCeil, UInt64.mod_one, if_pos rfl, UInt64.div_one]

theorem divCeil_self {a : UInt64} (ha : a ≠ 0) : divCeil a a = 1 := by
  apply UInt64.toNat_inj.mp
  rw [toNat_divCeil, mod_self, if_pos rfl, Nat.div_self (toNat_pos ha), toNat_one]

theorem max_one_of_ne_zero {a : UInt64} (ha : a ≠ 0) : max a 1 = a := by
  apply UInt64.toNat_inj.mp
  rw [toNat_max]
  exact max_eq_left (toNat_pos ha)

/-- The number of tiles on each axis of a grid with a pivot. -/
theorem nTiles_pivoted (ht : t ≠ 0) (hfaster : 0 ∉ faster) :
    nTiles (slower.map (fun _ => 1) ++ t :: faster) (slower ++ n :: faster) =
      slower ++ divCeil n t :: faster.map fun _ => 1 := by
  unfold nTiles
  rw [zipWith_append (by rw [length_map]), zipWith_cons_cons,
    max_one_of_ne_zero ht, zipWith_map_right, zipWith_self, zipWith_self]
  congr 1
  · refine (map_congr_left fun d _ => ?_).trans (map_id slower)
    exact divCeil_one d
  · congr 1
    refine map_congr_left fun d hd => ?_
    have hd0 : d ≠ 0 := fun h0 => hfaster (h0 ▸ hd)
    rw [max_one_of_ne_zero hd0, divCeil_self hd0]

/-- The number of elements on some axes. -/
def elements (dims : List UInt64) : ℕ := (dims.map UInt64.toNat).prod

theorem elements_cons (d : UInt64) (dims : List UInt64) :
    elements (d :: dims) = d.toNat * elements dims := by
  rw [elements, map_cons, prod_cons, elements]

theorem elements_append (xs ys : List UInt64) :
    elements (xs ++ ys) = elements xs * elements ys := by
  rw [elements, map_append, prod_append, elements, elements]

theorem elements_pos (h : 0 ∉ dims) : 0 < elements dims := by
  induction dims with
  | nil => exact one_pos
  | cons d dims ih =>
    rw [mem_cons, not_or] at h
    exact mul_pos (toNat_pos (Ne.symm h.1)) (ih h.2)

/-- A run with this first element, length and size, in words of 64 bits. The sums of 128 bits may
wrap, but a byte range keeps only their lower half. -/
def RunIs (acc : ℕ × ℕ × ℕ) (start run size : ℕ) : Prop :=
  UInt64.ofNat acc.1 = UInt64.ofNat start ∧ UInt64.ofNat acc.2.1 = UInt64.ofNat run ∧
    UInt64.ofNat acc.2.2 = UInt64.ofNat size

theorem ofNat_wrap128 (x : ℕ) : ofNat (wrap128 x) = ofNat x := by
  apply UInt64.toNat_inj.mp
  rw [wrap128]
  exact mod_mod_of_dvd x (pow_dvd_pow 2 (by decide))

/-- One axis of a run whose tile starts within the axis. -/
theorem RunIs.step {acc : ℕ × ℕ × ℕ} {start run size : ℕ} (h : RunIs acc start run size)
    {coord tile dim : UInt64} (hle : coord.toNat * tile.toNat ≤ dim.toNat) :
    RunIs (runStep (coord, tile, dim) acc) (start + coord.toNat * tile.toNat * size)
      (run * min tile.toNat (dim.toNat - coord.toNat * tile.toNat)) (size * dim.toNat) := by
  obtain ⟨hstart, hrun, hsize⟩ := h
  have haxis : (coord * tile).toNat = coord.toNat * tile.toNat := by
    exact mod_eq_of_lt (hle.trans_lt dim.toNat_lt)
  have hextent : (min tile (dim - coord * tile)).toNat =
      min tile.toNat (dim.toNat - coord.toNat * tile.toNat) := by
    have hword : coord * tile ≤ dim := by rwa [le_iff_toNat_le, haxis]
    rw [toNat_min, UInt64.toNat_sub_of_le _ _ hword, haxis]
  unfold RunIs runStep
  rw [ofNat_wrap128, ofNat_wrap128, ofNat_wrap128, haxis, hextent]
  simp [hstart, hrun, hsize]

/-- The axes that are taken whole add their elements to the run. -/
theorem foldr_runStep_whole (faster : List UInt64) :
    RunIs (((faster.map fun _ => 0).zip (faster.zip faster)).foldr runStep (0, 1, 1))
      0 (elements faster) (elements faster) := by
  induction faster with
  | nil => exact ⟨rfl, rfl, rfl⟩
  | cons d faster ih =>
    have hzero : (0 : UInt64).toNat * d.toNat = 0 := zero_mul _
    have hstep := ih.step (hzero.trans_le (zero_le d.toNat))
    rwa [hzero, Nat.zero_mul, Nat.sub_zero, min_self, mul_comm (elements faster)] at hstep

/-- The axes with single elements add the index of their element to the start of the run. -/
theorem foldr_runStep_single (hpos : 0 ∉ slower) (rem : UInt64) {acc : ℕ × ℕ × ℕ}
    {start run size : ℕ} (hacc : RunIs acc start run size) :
    RunIs (((tileCoords slower rem).1.zip ((slower.map fun _ => 1).zip slower)).foldr runStep acc)
        (start + rem.toNat % elements slower * size) run (elements slower * size) ∧
      (tileCoords slower rem).2.toNat = rem.toNat / elements slower := by
  induction slower with
  | nil =>
    rw [show elements [] = 1 from rfl, mod_one, Nat.zero_mul, Nat.one_mul, Nat.div_one]
    exact ⟨hacc, rfl⟩
  | cons d slower ih =>
    rw [mem_cons, not_or] at hpos
    have hd : 0 < d.toNat := toNat_pos (Ne.symm hpos.1)
    obtain ⟨hfold, hrem⟩ := ih hpos.2
    rw [tileCoords, elements_cons]
    have hcoord : ((tileCoords slower rem).2 % d).toNat * (1 : UInt64).toNat =
        rem.toNat / elements slower % d.toNat := by
      rw [UInt64.toNat_mod, hrem, toNat_one, Nat.mul_one]
    have hlt : rem.toNat / elements slower % d.toNat < d.toNat := mod_lt _ hd
    refine ⟨?_, ?_⟩
    · have hstep := hfold.step (hcoord.trans_le hlt.le)
      -- the index within the axes so far, one digit longer
      have hdigits : start + rem.toNat % (d.toNat * elements slower) * size =
          start + rem.toNat % elements slower * size +
            rem.toNat / elements slower % d.toNat * (elements slower * size) := by
        rw [mul_comm d.toNat, mod_mul]
        ring
      have hone : min (1 : UInt64).toNat (d.toNat - rem.toNat / elements slower % d.toNat) = 1 := by
        rw [toNat_one]
        omega
      have hgrow : d.toNat * elements slower * size = elements slower * size * d.toNat := by ring
      rw [hcoord, hone, Nat.mul_one] at hstep
      rwa [hdigits, hgrow]
    · rw [UInt64.toNat_div, hrem, Nat.div_div_eq_div_mul, mul_comm d.toNat]

theorem cut_divCeil (hn : n ≠ 0) (ht : t ≠ 0) : Cut n.toNat t.toNat (divCeil n t).toNat where
  cells_pos := toNat_pos hn
  piece_pos := toNat_pos ht
  lt_iff _ := lt_toNat_divCeil_iff ht

/-- The elements of a tile: the rows are the single elements of the slower axes, cut on the axis
that is split. -/
theorem foldr_runStep_pivoted (hslower : 0 ∉ slower) (hn : n ≠ 0) (ht : t ≠ 0) {idx : UInt64}
    (hidx : idx.toNat < elements slower * (divCeil n t).toNat) :
    RunIs (((tileCoords (slower ++ divCeil n t :: faster.map fun _ => 1) idx).1.zip
        ((slower.map (fun _ => 1) ++ t :: faster).zip (slower ++ n :: faster))).foldr runStep
          (0, 1, 1))
      (elements faster * boundary n.toNat t.toNat (divCeil n t).toNat idx.toNat)
      (elements faster * min t.toNat (n.toNat - idx.toNat % (divCeil n t).toNat * t.toNat))
      (elements slower * (elements faster * n.toNat)) := by
  have hcut := cut_divCeil hn ht
  -- what is left of the index numbers the elements of the slower axes
  have hrest : (idx / divCeil n t).toNat % elements slower = idx.toNat / (divCeil n t).toNat := by
    exact mod_eq_of_lt (Nat.div_lt_of_lt_mul (by rwa [mul_comm]))
  have hsplit := (foldr_runStep_whole faster).step
    (show (idx % divCeil n t).toNat * t.toNat ≤ n.toNat by
      exact (hcut.start_lt idx.toNat).le)
  obtain ⟨hfold, -⟩ := foldr_runStep_single hslower (idx / divCeil n t) hsplit
  rw [tileCoords_append, tileCoords, tileCoords_ones, zip_append (by rw [length_map]),
    zip_append (by rw [length_tileCoords, length_zip, length_map, min_self]), foldr_append]
  rw [hrest, zero_add] at hfold
  have hstart : elements faster * boundary n.toNat t.toNat (divCeil n t).toNat idx.toNat =
      idx.toNat % (divCeil n t).toNat * t.toNat * elements faster +
        idx.toNat / (divCeil n t).toNat * (elements faster * n.toNat) := by
    rw [boundary]
    ring
  rwa [hstart]

/-- The bytes of a leaf: a piece of a row, in elements of the faster axes. Sizes beyond a word
wrap. -/
theorem leafByteRange_pivoted (hslower : 0 ∉ slower) (hn : n ≠ 0) (hfaster : 0 ∉ faster)
    (ht : t ≠ 0) (elemSize : UInt32) {idx : UInt64}
    (hidx : idx.toNat < elements slower * (divCeil n t).toNat) :
    (leafByteRange (slower.map (fun _ => 1) ++ t :: faster) (slower ++ n :: faster) elemSize idx :
        Except (Halt ε) _) =
      .ok (ofNat (elemSize.toNat * (elements faster *
          boundary n.toNat t.toNat (divCeil n t).toNat idx.toNat)),
        ofNat (elemSize.toNat * (elements faster *
          boundary n.toNat t.toNat (divCeil n t).toNat (idx.toNat + 1)))) := by
  have hcut := cut_divCeil hn ht
  have hgrid : ¬ ((slower.map (fun _ => 1) ++ t :: faster).length < (slower ++ n :: faster).length ∨
      0 ∈ nTiles (slower.map (fun _ => 1) ++ t :: faster) (slower ++ n :: faster)) := by
    have hcutNe : divCeil n t ≠ 0 := fun h0 => by
      have := hcut.pieces_pos
      rw [h0] at this
      exact lt_irrefl 0 this
    rw [nTiles_pivoted ht hfaster]
    simp [hslower, hcutNe.symm]
  obtain ⟨hstart, hrun, -⟩ := @foldr_runStep_pivoted slower faster n t hslower hn ht idx hidx
  rw [leafByteRange, if_neg hgrid, nTiles_pivoted ht hfaster]
  dsimp only
  rw [ofNat_wrap128, ofNat_wrap128, ofNat_mul, ofNat_mul, hstart, hrun,
    hcut.boundary_succ, mul_add, mul_add, ofNat_add, ← ofNat_mul,
    ← ofNat_mul, mul_comm _ elemSize.toNat, mul_comm _ elemSize.toNat]

theorem elements_boundary_le (hn : n ≠ 0) (ht : t ≠ 0) {i : ℕ}
    (hi : i ≤ elements slower * (divCeil n t).toNat) :
    elements faster * boundary n.toNat t.toNat (divCeil n t).toNat i ≤
      elements (slower ++ n :: faster) := by
  have hcut := cut_divCeil hn ht
  rw [elements_append, elements_cons, mul_comm n.toNat, mul_left_comm, ← hcut.boundary_mul]
  exact mul_le_mul_left _ (hcut.boundary_mono.monotone hi)

theorem elements_ones (xs : List UInt64) : elements (xs.map fun _ => 1) = 1 := by
  induction xs with
  | nil => rfl
  | cons x xs ih => rw [map_cons, elements_cons, ih, toNat_one]

theorem elements_nTiles_pivoted (ht : t ≠ 0) (hfaster : 0 ∉ faster) :
    elements (nTiles (slower.map (fun _ => 1) ++ t :: faster) (slower ++ n :: faster)) =
      elements slower * (divCeil n t).toNat := by
  rw [nTiles_pivoted ht hfaster, elements_append, elements_cons, elements_ones, Nat.mul_one]

end

/-! ### The leaves of a dataset -/

/-- A leaf that is not cut off at the end of an axis. -/
def FullLeaf (grid dims : List UInt64) (idx : UInt64) : Prop :=
  ∀ axis ∈ (tileCoords (nTiles grid dims) idx).1.zip (grid.zip dims),
    axis.1.toNat * axis.2.1.toNat + axis.2.1.toNat ≤ axis.2.2.toNat

theorem Pivoted.exists_boundaries (h : Pivoted dims grid) (hpos : 0 ∉ dims) (elemSize : UInt32) :
    ∃ b : ℕ → ℕ, StrictMono b ∧ b 0 = 0 ∧ b (elements (nTiles grid dims)) = elements dims ∧
      0 < elements (nTiles grid dims) ∧
      ∀ idx : UInt64, idx.toNat < elements (nTiles grid dims) →
        (leafByteRange grid dims elemSize idx : Except (Halt ε) _) =
          .ok (ofNat (elemSize.toNat * b idx.toNat),
            ofNat (elemSize.toNat * b (idx.toNat + 1))) := by
  obtain ⟨slower, n, faster, t, rfl, rfl, htpos, -⟩ := h
  have ht : t ≠ 0 := fun h0 => by
    rw [h0] at htpos
    exact lt_irrefl 0 htpos
  simp only [mem_append, mem_cons, not_or] at hpos
  obtain ⟨hslower, hn, hfaster⟩ := hpos
  have hcut := cut_divCeil (Ne.symm hn) ht
  have hfast := elements_pos hfaster
  rw [elements_nTiles_pivoted ht hfaster]
  refine ⟨fun i => elements faster * boundary n.toNat t.toNat (divCeil n t).toNat i,
    fun i j hij => mul_lt_mul_of_pos_left (hcut.boundary_mono hij) hfast, ?_, ?_, ?_, ?_⟩
  · exact congrArg (elements faster * ·) (boundary_zero ..)
  · dsimp only
    rw [hcut.boundary_mul, elements_append, elements_cons]
    ring
  · exact mul_pos (elements_pos hslower) hcut.pieces_pos
  · exact fun idx hidx =>
      leafByteRange_pivoted hslower (Ne.symm hn) hfaster ht elemSize hidx

/-- A leaf size that does not wrap. -/
theorem wholeBytes_of_fits {running : ℕ} {axes : List UInt64} (hpos : 0 ∉ axes)
    (hfits : running * elements axes < 2 ^ 128) :
    wholeBytes running axes = running * elements axes := by
  induction axes generalizing running with
  | nil => exact (mul_one running).symm
  | cons n axes ih =>
    rw [mem_cons, not_or] at hpos
    rw [elements_cons, ← mul_assoc] at hfits ⊢
    have hsize : running * n.toNat < 2 ^ 128 :=
      (Nat.le_mul_of_pos_right _ (elements_pos hpos.2)).trans_lt hfits
    have hstep : wholeBytes running (n :: axes) =
        wholeBytes (wrap128 (running * n.toNat)) axes := rfl
    rw [hstep, wrap128_of_lt hsize, ih hpos.2 hfits]

theorem elements_reverse (xs : List UInt64) : elements xs.reverse = elements xs := by
  rw [elements, map_reverse, prod_reverse, elements]

/-- The pivot of a grid that is chosen, and the bytes of its tiles. -/
theorem verificationGrid_band {targetBytes : UInt64}
    (hgrid : verificationGrid dims elemSize targetBytes = some grid) (hpos : 0 ∉ dims)
    (hfits : elemSize.toNat * elements dims < 2 ^ 63) (helem : elemSize.toNat ≤ targetBytes.toNat) :
    ∃ slower n faster t, dims = slower ++ n :: faster ∧
      grid = slower.map (fun _ => 1) ++ t :: faster ∧ t ≠ 0 ∧
      targetBytes.toNat ≤ 2 * (elemSize.toNat * elements faster * t.toNat) ∧
      elemSize.toNat * elements faster * t.toNat ≤ 2 * targetBytes.toNat := by
  obtain ⟨htarget, hsplit⟩ := verificationGrid_eq_some hgrid
  obtain ⟨taken, n, slower, size, haxes, hsize, hshape, hlarge, hsmall⟩ :=
    splitAxis_eq_some hsplit
  have hdims : dims = slower.reverse ++ n :: taken.reverse := by
    rw [← reverse_reverse dims, haxes]
    simp
  rw [hdims] at hpos
  simp only [mem_append, mem_cons, mem_reverse, not_or] at hpos
  obtain ⟨hslower, hn, htaken⟩ := hpos
  have hnPos : 0 < n.toNat := toNat_pos (Ne.symm hn)
  -- no product wraps, as each is at most the size of the dataset
  have hrow : elemSize.toNat * elements taken * n.toNat < 2 ^ 63 := by
    refine lt_of_le_of_lt ?_ hfits
    rw [hdims, elements_append, elements_cons, elements_reverse, elements_reverse,
      mul_assoc, mul_comm (elements taken)]
    exact mul_le_mul_left _ (Nat.le_mul_of_pos_left _ (elements_pos hslower))
  have hcell : elemSize.toNat * elements taken < 2 ^ 63 :=
    (Nat.le_mul_of_pos_right _ hnPos).trans_lt hrow
  have hwhole := wholeBytes_of_fits htaken (hcell.trans (by decide))
  have hsquare : ∀ {a : ℕ}, a < 2 ^ 63 → 2 * a * a < 2 ^ 128 := fun {a} ha => by
    have := Nat.mul_lt_mul'' ha ha
    rw [mul_assoc]
    omega
  have htargetSquare : targetBytes.toNat * targetBytes.toNat < 2 ^ 128 := by
    have := Nat.mul_lt_mul'' targetBytes.toNat_lt targetBytes.toNat_lt
    rwa [← pow_add] at this
  rw [hwhole, wrap128_of_lt (hrow.trans (by decide))] at hsize
  rw [hsize, wrap128_of_lt htargetSquare, wrap128_of_lt (hsquare hrow)] at hlarge
  rw [hwhole, wrap128_of_lt htargetSquare, wrap128_of_lt (hsquare hcell)] at hsmall
  have hcellLe : elemSize.toNat * elements taken ≤ targetBytes.toNat := by
    by_cases hnil : taken = []
    · rwa [hnil, elements, map_nil, prod_nil, Nat.mul_one]
    · by_contra hlt
      have hmul := Nat.mul_lt_mul'' (Nat.lt_of_not_le hlt) (Nat.lt_of_not_le hlt)
      have hle := hsmall hnil
      rw [mul_assoc] at hle
      omega
  obtain ⟨htile, htilePos, -⟩ := toNat_tileExtent hnPos
    (lt_of_lt_of_le one_pos (le_max_right (size ⌈/⌉ targetBytes.toNat) 1))
  have hband := piece_band (toNat_pos htarget) hcellLe hlarge
  rw [← hsize, ← htile] at hband
  rw [← htile] at htilePos
  generalize ofNat (n.toNat ⌈/⌉ max (size ⌈/⌉ targetBytes.toNat) 1) = t at *
  refine ⟨slower.reverse, n, taken.reverse, t, hdims, ?_, fun h0 => ?_, ?_⟩
  · rw [hshape, append_nil, map_reverse, map_const', reverse_replicate]
  · rw [h0] at htilePos
    exact lt_irrefl 0 htilePos
  · rwa [elements_reverse]

/-- A full leaf has the length of a whole tile. -/
theorem leafByteRange_fullLeaf {slower faster : List UInt64} {n t : UInt64}
    (hpos : 0 ∉ slower ++ n :: faster) (ht : t ≠ 0)
    (hfits : elemSize.toNat * elements (slower ++ n :: faster) < 2 ^ 64) {idx first last : UInt64}
    (hidx : idx.toNat < elements (nTiles (slower.map (fun _ => 1) ++ t :: faster) (slower ++ n ::
      faster)))
    (hfull : FullLeaf (slower.map (fun _ => 1) ++ t :: faster) (slower ++ n :: faster) idx)
    (hrange : (leafByteRange (slower.map (fun _ => 1) ++ t :: faster) (slower ++ n :: faster)
      elemSize idx : Except (Halt ε) _) = .ok (first, last)) :
    last.toNat - first.toNat = elemSize.toNat * elements faster * t.toNat := by
  simp only [mem_append, mem_cons, not_or] at hpos
  obtain ⟨hslower, hn, hfaster⟩ := hpos
  have hcut := cut_divCeil (Ne.symm hn) ht
  rw [elements_nTiles_pivoted ht hfaster] at hidx
  rw [leafByteRange_pivoted hslower (Ne.symm hn) hfaster ht elemSize hidx] at hrange
  obtain ⟨rfl, rfl⟩ := Prod.mk.inj (Except.ok.inj hrange)
  -- the leaf is not cut off on the axis that is split
  have hwhole : idx.toNat % (divCeil n t).toNat * t.toNat + t.toNat ≤ n.toNat := by
    have hmem : (idx % divCeil n t, t, n) ∈
        (tileCoords (nTiles (slower.map (fun _ => 1) ++ t :: faster) (slower ++ n :: faster))
          idx).1.zip ((slower.map (fun _ => 1) ++ t :: faster).zip (slower ++ n :: faster)) := by
      rw [nTiles_pivoted ht hfaster, tileCoords_append, tileCoords, tileCoords_ones,
        zip_append (by rw [length_map]),
        zip_append (by rw [length_tileCoords, length_zip, length_map, min_self])]
      exact mem_append_right _ mem_cons_self
    have haxis := hfull _ hmem
    rwa [UInt64.toNat_mod] at haxis
  have hend : elemSize.toNat * (elements faster *
      boundary n.toNat t.toNat (divCeil n t).toNat (idx.toNat + 1)) < 2 ^ 64 :=
    (mul_le_mul_left _ (elements_boundary_le (Ne.symm hn) ht hidx)).trans_lt hfits
  rw [hcut.boundary_succ, mul_add, mul_add, min_eq_left (by omega)] at hend ⊢
  have hstart := le_self_add.trans_lt hend
  rw [toNat_ofNat_of_lt' hend, toNat_ofNat_of_lt' hstart, mul_assoc]
  omega

/-- The leaves of a dataset of less than `2 ^ 63` bytes are not empty, the first starts at byte 0,
each starts where the one before it ends, and the last ends with the data. Where a grid was chosen,
a full leaf has between half the target size and twice that. -/
theorem leafByteRange_partition {dims : List UInt64} {elemSize : UInt32} {targetBytes : UInt64}
    (hdims : dims ≠ []) (hpos : 0 ∉ dims) (helem : elemSize ≠ 0)
    (hfits : elemSize.toNat * elements dims < 2 ^ 63) :
    0 < elements (nTiles (tileShape dims elemSize targetBytes) dims) ∧
    (∀ idx : UInt64, idx.toNat < elements (nTiles (tileShape dims elemSize targetBytes) dims) →
      ∃ first last,
        (leafByteRange (tileShape dims elemSize targetBytes) dims elemSize idx :
          Except (Halt ε) _) = .ok (first, last) ∧
        first < last ∧ (idx = 0 → first = 0) ∧
        (idx.toNat + 1 = elements (nTiles (tileShape dims elemSize targetBytes) dims) →
          last.toNat = elemSize.toNat * elements dims) ∧
        (idx.toNat + 1 < elements (nTiles (tileShape dims elemSize targetBytes) dims) →
          ∃ next, (leafByteRange (tileShape dims elemSize targetBytes) dims elemSize (idx + 1) :
            Except (Halt ε) _) = .ok (last, next))) ∧
    (∀ grid, verificationGrid dims elemSize targetBytes = some grid →
      elemSize.toNat ≤ targetBytes.toNat → ∀ idx first last,
        idx.toNat < elements (nTiles grid dims) → FullLeaf grid dims idx →
        (leafByteRange grid dims elemSize idx : Except (Halt ε) _) = .ok (first, last) →
        targetBytes.toNat ≤ 2 * (last.toNat - first.toNat) ∧
          last.toNat - first.toNat ≤ 2 * targetBytes.toNat) := by
  have hsize : 0 < elemSize.toNat :=
    Nat.pos_of_ne_zero fun h0 => helem (UInt32.toNat_inj.mp h0)
  have hcount : elements dims < 2 ^ 64 :=
    (Nat.le_mul_of_pos_left _ hsize).trans_lt (hfits.trans (by decide))
  have hbytes : elemSize.toNat * elements dims < 2 ^ 64 := hfits.trans (by decide)
  have hpivot := tileShape_pivoted hdims hpos elemSize targetBytes
  obtain ⟨b, hmono, hzero, htotal, hleaves, hrange⟩ :=
    hpivot.exists_boundaries (ε := ε) hpos elemSize
  refine ⟨hleaves, fun idx hidx => ?_, fun grid hgrid hle idx first last hidx hfull hok => ?_⟩
  · have hbound : elemSize.toNat * b (idx.toNat + 1) ≤ elemSize.toNat * elements dims := by
      rw [← htotal]
      exact Nat.mul_le_mul_left _ (hmono.monotone hidx)
    have hstep : elemSize.toNat * b idx.toNat < elemSize.toNat * b (idx.toNat + 1) :=
      Nat.mul_lt_mul_of_pos_left (hmono (lt_succ_self _)) hsize
    refine ⟨_, _, hrange idx hidx, ?_, fun h0 => ?_, fun hlast => ?_, fun hnext => ?_⟩
    · rw [lt_iff_toNat_lt, toNat_ofNat_of_lt' (hstep.trans (hbound.trans_lt hbytes)),
        toNat_ofNat_of_lt' (hbound.trans_lt hbytes)]
      exact hstep
    · rw [h0, UInt64.toNat_zero, hzero]
      rfl
    · rw [hlast, htotal, toNat_ofNat_of_lt' hbytes]
    · -- the index itself does not wrap
      have hsucc : (idx + 1).toNat = idx.toNat + 1 := by
        have htiles : elements (nTiles (tileShape dims elemSize targetBytes) dims) ≤
            elements dims := by
          rw [← htotal]
          exact hmono.le_apply
        rw [UInt64.toNat_add, toNat_one, mod_eq_of_lt (by omega)]
      rw [← hsucc] at hnext ⊢
      exact ⟨_, hrange _ hnext⟩
  · obtain ⟨slower, n, faster, t, rfl, rfl, ht, hband⟩ :=
      verificationGrid_band hgrid hpos hfits hle
    rwa [leafByteRange_fullLeaf hpos ht hbytes hidx hfull hok]

/-- The premises hold for a matrix of four by three words, in leaves of two rows. -/
theorem leafByteRange_partition_fourByThree :
    FullLeaf [2, 3] [4, 3] 1 ∧
      ∃ first last, (leafByteRange [2, 3] [4, 3] 4 1 : Except (Halt Empty) _) =
        .ok (first, last) ∧ first < last ∧ 24 ≤ 2 * (last.toNat - first.toNat) := by
  have hfull : FullLeaf [2, 3] [4, 3] 1 := by
    have haxes : (tileCoords (nTiles [2, 3] [4, 3]) 1).1.zip
        (([2, 3] : List UInt64).zip ([4, 3] : List UInt64)) = [(1, 2, 4), (0, 3, 3)] := by decide
    rw [FullLeaf, haxes]
    simp
  obtain ⟨-, hleaf, hband⟩ := @leafByteRange_partition Empty [4, 3] 4 24 (by decide) (by decide)
    (by decide) (by decide)
  obtain ⟨first, last, hrange, hlt, -⟩ := hleaf 1 (by decide)
  exact ⟨hfull, first, last, hrange, hlt,
    (hband [2, 3] (by decide) (by decide) 1 first last (by decide) hfull hrange).1⟩

end ClawHdf5.Subset
