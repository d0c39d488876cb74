import ClawHdf5.Math.Bytes
import ClawHdf5.Math.Overwrite
import ClawHdf5.Math.RowMajor

/-!
# Copying a chunk into a dataset

A chunk is a block of the dataset's grid, and its bytes are copied one row at a time: a row is a run
of elements along the last axis. Rows outside the dataset are skipped, and rows that reach over its
edge are clipped. Sizes and positions in buffers are exact numbers.
-/

namespace ClawHdf5.Format

open RowMajor Overwrite List

/-! ### The copy -/

/-- Copy `len` bytes between buffers, when both have them. -/
def copyRun (src output : Bytes) (srcStart dstStart len : ℕ) : Bytes :=
  if srcStart + len ≤ src.length ∧ dstStart + len ≤ output.length then
    overwrite output dstStart ((src.drop srcStart).take len)
  else output

/-- Where a row starts in the dataset and in the chunk, from its coordinates on the outer axes,
which are the digits of `remaining`. A coordinate outside the dataset ends the loop. On a single
outer axis the number of the row is its coordinate. -/
def rowStart (single : Bool) :
    (offsets dsDims dsStrides chunkStrides outerStrides : List ℕ) →
      (remaining dsFlat srcFlat : ℕ) → Option (ℕ × ℕ)
  | offset :: offsets, dim :: dsDims, dsStride :: dsStrides, chunkStride :: chunkStrides,
      outerStride :: outerStrides, remaining, dsFlat, srcFlat =>
    let coordInChunk := if single then remaining else remaining / outerStride
    let remaining := if single then remaining else remaining % outerStride
    let globalCoord := offset + coordInChunk
    if dim ≤ globalCoord then none
    else rowStart single offsets dsDims dsStrides chunkStrides outerStrides remaining
      (dsFlat + globalCoord * dsStride) (srcFlat + coordInChunk * chunkStride)
  | _, _, _, _, _, _, dsFlat, srcFlat => some (dsFlat, srcFlat)

def copyChunkToOutput (chunkData output : Bytes) (chunkOffsets chunkDims dsDims : List ℕ)
    (elemSize : ℕ) : Bytes :=
  let inner := dsDims.length - 1
  let innerOffset := chunkOffsets.getD inner 0
  let innerLen := min (chunkDims.getD inner 0) (dsDims.getD inner 0 - innerOffset)
  let rowBytes := innerLen * elemSize
  if rowBytes = 0 then output
  else if inner = 0 then copyRun chunkData output 0 (innerOffset * elemSize) rowBytes
  else
    let outerDims := chunkDims.take inner
    (range outerDims.prod).foldl (fun output row =>
      match rowStart (inner = 1) (chunkOffsets.take inner) (dsDims.take inner) (strides dsDims)
        (strides chunkDims) (strides outerDims) row 0 0 with
      | none => output
      | some (dsFlat, srcFlat) =>
        copyRun chunkData output (srcFlat * elemSize)
          ((dsFlat + innerOffset * (strides dsDims).getD inner 0) * elemSize) rowBytes) output

/-- Place a chunk into the output. A dataset without axes takes the chunk's first bytes. -/
def placeChunk (chunkData output : Bytes) (offsets chunkDims dsDims : List ℕ)
    (elemSize : ℕ) : Bytes :=
  if dsDims = [] then
    let copyLen := min chunkData.length output.length
    overwrite output 0 (chunkData.take copyLen)
  else copyChunkToOutput chunkData output (offsets.take dsDims.length) chunkDims dsDims elemSize

/-! ### Rows of a block -/

section

variable {offsets outer blockOuter : List ℕ} {n b : ℕ}

section

variable (hoffsets : offsets.length = outer.length) (hblock : blockOuter.length = outer.length)
  (row dsFlat srcFlat : ℕ)
include hoffsets hblock row dsFlat srcFlat

/-- Where a row starts: its coordinates in the chunk are the digits of its number. -/
theorem rowStart_eq :
    rowStart false offsets outer (strides (outer ++ [n])) (strides (blockOuter ++ [b]))
        (strides blockOuter) row dsFlat srcFlat =
      if InBounds outer (shift offsets (unflatten blockOuter row)) then
        some (dsFlat + flat outer (shift offsets (unflatten blockOuter row)) * n,
          srcFlat + flat blockOuter (unflatten blockOuter row) * b)
      else none := by
  induction outer generalizing offsets blockOuter row dsFlat srcFlat with
  | nil =>
    obtain rfl := length_eq_zero_iff.mp hblock
    simp [rowStart, unflatten, shift, flat]
  | cons dim outer ih =>
    obtain ⟨offset, offsets, rfl⟩ := exists_cons_of_length_eq_add_one hoffsets
    obtain ⟨size, blockOuter, rfl⟩ := exists_cons_of_length_eq_add_one hblock
    simp only [cons_append, strides, rowStart, Bool.false_eq_true, if_false, unflatten, shift,
      zipWith_cons_cons, inBounds_cons, flat]
    rcases lt_or_ge (offset + row / blockOuter.prod) dim with hlt | hge
    · have hrest := @ih offsets blockOuter (Nat.succ_injective hoffsets)
        (Nat.succ_injective hblock)
      simp only [shift] at hrest
      rw [hrest]
      simp [hlt, add_mul, mul_assoc, add_assoc]
    · rw [if_pos hge, if_neg fun h => absurd h.1 (not_lt.mpr hge)]

/-- On one outer axis, the number of the row is its coordinate. -/
theorem rowStart_decide :
    rowStart (outer.length = 1) offsets outer (strides (outer ++ [n])) (strides (blockOuter ++ [b]))
        (strides blockOuter) row dsFlat srcFlat =
      rowStart false offsets outer (strides (outer ++ [n])) (strides (blockOuter ++ [b]))
        (strides blockOuter) row dsFlat srcFlat := by
  by_cases hone : outer.length = 1
  · obtain ⟨dim, rfl⟩ := length_eq_one_iff.mp hone
    obtain ⟨offset, rfl⟩ := length_eq_one_iff.mp hoffsets
    obtain ⟨size, rfl⟩ := length_eq_one_iff.mp hblock
    simp [rowStart, strides]
  · rw [decide_eq_false hone]

end

/-- The rows of a block that lie in the dataset: where each starts in the chunk and in the dataset,
counted in elements. The last axis has extent `n` in the dataset and `b` in the chunk, which starts
at `o` on it. -/
def blockRows (offsets outer blockOuter : List ℕ) (o n b : ℕ) : List (ℕ × ℕ) :=
  (range blockOuter.prod).filterMap fun row =>
    let c := unflatten blockOuter row
    if InBounds outer (shift offsets c) then
      some (flat blockOuter c * b, flat outer (shift offsets c) * n + o)
    else none

def copyRows (chunkData : Bytes) (elemSize len : ℕ) (rows : List (ℕ × ℕ)) (output : Bytes) :
    Bytes :=
  rows.foldl (fun output row =>
    copyRun chunkData output (row.1 * elemSize) (row.2 * elemSize) (len * elemSize)) output

theorem copyRun_zero (src output : Bytes) (srcStart dstStart : ℕ) :
    copyRun src output srcStart dstStart 0 = output := by
  simp [copyRun]

theorem copyRows_empty {chunkData output : Bytes} {elemSize len : ℕ} {rows : List (ℕ × ℕ)}
    (h : len * elemSize = 0) : copyRows chunkData elemSize len rows output = output := by
  induction rows with
  | nil => rfl
  | cons row rows ih =>
    rw [copyRows, foldl_cons, h, copyRun_zero]
    rwa [copyRows, h] at ih

theorem copyRows_filterMap {α : Type*} {chunkData output : Bytes} {elemSize len : ℕ}
    {f : α → Option (ℕ × ℕ)} {xs : List α} :
    copyRows chunkData elemSize len (xs.filterMap f) output = xs.foldl (fun out x =>
        match f x with
        | none => out
        | some row =>
          copyRun chunkData out (row.1 * elemSize) (row.2 * elemSize) (len * elemSize)) output := by
  induction xs generalizing output with
  | nil => rfl
  | cons x xs ih =>
    rw [filterMap_cons, foldl_cons, ← ih]
    cases f x <;> rfl

theorem getD_append_length {xs ys : List ℕ} (h : xs.length = ys.length) (x : ℕ) :
    (xs ++ [x]).getD ys.length 0 = x := by
  simp [← h]

theorem strides_append_getD (outer : List ℕ) (n : ℕ) :
    (strides (outer ++ [n])).getD outer.length 0 = 1 := by
  induction outer with
  | nil => rfl
  | cons dim outer ih => simpa [strides] using ih

/-- In every rank, a chunk is copied by the rows of its block. -/
theorem copyChunkToOutput_eq (hoffsets : offsets.length = outer.length)
    (hblock : blockOuter.length = outer.length) (chunkData output : Bytes) (o elemSize : ℕ) :
    copyChunkToOutput chunkData output (offsets ++ [o]) (blockOuter ++ [b]) (outer ++ [n])
        elemSize =
      copyRows chunkData elemSize (min b (n - o)) (blockRows offsets outer blockOuter o n b)
        output := by
  have hinner : (outer ++ [n]).length - 1 = outer.length := by simp
  simp only [copyChunkToOutput, hinner, getD_append_length hoffsets, getD_append_length hblock,
    getD_append_length rfl, strides_append_getD, mul_one, take_left' hoffsets,
    take_left' hblock, take_left]
  split_ifs with hempty hflat
  · rw [copyRows_empty hempty]
  · -- rank 1: one row
    obtain rfl := length_eq_zero_iff.mp hflat
    obtain rfl := length_eq_zero_iff.mp hblock
    simp [blockRows, copyRows, unflatten, shift, flat]
  · rw [blockRows, copyRows_filterMap]
    congr 1
    funext output row
    rw [rowStart_decide hoffsets hblock, rowStart_eq hoffsets hblock]
    dsimp only
    split_ifs
    · simp only [zero_add]
    · rfl

end

/-! ### What a copy leaves in each cell -/

section

variable {chunkData output : Bytes} {w len p : ℕ}

@[simp] theorem length_copyRun (src output : Bytes) (srcStart dstStart len : ℕ) :
    (copyRun src output srcStart dstStart len).length = output.length := by
  rw [copyRun]
  split_ifs with h
  · rw [length_overwrite (by omega), length_take]
    omega
  · rfl

@[simp] theorem length_copyChunkToOutput (chunkData output : Bytes)
    (offsets chunkDims dsDims : List ℕ) (elemSize : ℕ) :
    (copyChunkToOutput chunkData output offsets chunkDims dsDims elemSize).length =
      output.length := by
  simp only [copyChunkToOutput]
  split_ifs
  · rfl
  · exact length_copyRun ..
  · refine foldlRecOn (motive := fun b : Bytes => b.length = output.length) _ _ rfl ?_
    intro b hb row _
    split
    · exact hb
    · exact (length_copyRun ..).trans hb

theorem cell_copyRun {src d : ℕ} (hsrc : (src + len) * w ≤ chunkData.length)
    (hdst : (d + len) * w ≤ output.length) :
    cell w (copyRun chunkData output (src * w) (d * w) (len * w)) p =
      if d ≤ p ∧ p < d + len then cell w chunkData (src + (p - d)) else cell w output p := by
  have hlen : ((chunkData.drop (src * w)).take (len * w)).length = len * w := by
    rw [add_mul] at hsrc
    rw [length_take, length_drop]
    omega
  rw [copyRun, if_pos ⟨Nat.add_mul .. ▸ hsrc, Nat.add_mul .. ▸ hdst⟩, cell_overwrite hdst hlen]
  split_ifs with hp
  · rw [cell_take_drop _ _ (by omega)]
  · rfl

/-- When every row over a cell has the same contents for it, that is what the cell gets. -/
theorem cell_copyRows {rows : List (ℕ × ℕ)} {v : Bytes}
    (hsrc : ∀ row ∈ rows, (row.1 + len) * w ≤ chunkData.length)
    (hdst : ∀ row ∈ rows, (row.2 + len) * w ≤ output.length)
    (hv : ∀ row ∈ rows, row.2 ≤ p ∧ p < row.2 + len → cell w chunkData (row.1 + (p - row.2)) = v) :
    cell w (copyRows chunkData w len rows output) p =
      if ∃ row ∈ rows, row.2 ≤ p ∧ p < row.2 + len then v else cell w output p := by
  rw [copyRows, foldl_write (fun b => cell w b p) (fun b => b.length = output.length)
    (fun row => row.2 ≤ p ∧ p < row.2 + len) v]
  · congr
  · exact fun b row hb => (length_copyRun ..).trans hb
  · intro row hrow b hb
    rw [cell_copyRun (hsrc row hrow) (hb ▸ hdst row hrow)]
    split_ifs with hp
    · exact hv row hrow hp
    · rfl
  · rfl

end

section

variable {offsets outer blockOuter : List ℕ} {o n b w : ℕ} {chunkData output : Bytes}

theorem mem_blockRows {row : ℕ × ℕ} : row ∈ blockRows offsets outer blockOuter o n b ↔
      ∃ x, InBounds blockOuter x ∧ InBounds outer (shift offsets x) ∧
        row = (flat blockOuter x * b, flat outer (shift offsets x) * n + o) := by
  simp only [blockRows, mem_filterMap, mem_range, Option.ite_none_right_eq_some, Option.some.injEq]
  constructor
  · rintro ⟨k, hk, hin, rfl⟩
    exact ⟨unflatten blockOuter k, inBounds_unflatten hk, hin, rfl⟩
  · rintro ⟨x, hx, hin, rfl⟩
    exact ⟨flat blockOuter x, flat_lt hx, by rwa [unflatten_flat hx], by rw [unflatten_flat hx]⟩

theorem blockRows_src (row : ℕ × ℕ) (h : row ∈ blockRows offsets outer blockOuter o n b) :
    row.1 + b ≤ blockOuter.prod * b := by
  obtain ⟨x, hx, -, rfl⟩ := mem_blockRows.mp h
  have hrow : (flat blockOuter x + 1) * b ≤ blockOuter.prod * b :=
    Nat.mul_le_mul_right b (flat_lt hx)
  rwa [Nat.succ_mul] at hrow

theorem blockRows_dst (ho : o ≤ n) (row : ℕ × ℕ)
    (h : row ∈ blockRows offsets outer blockOuter o n b) :
    row.2 + (n - o) ≤ outer.prod * n := by
  obtain ⟨x, -, hin, rfl⟩ := mem_blockRows.mp h
  have hrow : (flat outer (shift offsets x) + 1) * n ≤ outer.prod * n :=
    Nat.mul_le_mul_right n (flat_lt hin)
  rw [Nat.succ_mul] at hrow
  omega

/-- The only row over a cell is the one with its outer coordinates. -/
theorem blockRows_covers {row : ℕ × ℕ} {y : List ℕ} {z : ℕ} (ho : o ≤ n) (hy : InBounds outer y)
    (hz : z < n) :
    row ∈ blockRows offsets outer blockOuter o n b ∧
        row.2 ≤ flat outer y * n + z ∧ flat outer y * n + z < row.2 + min b (n - o) ↔
      ∃ x, InBounds blockOuter x ∧ shift offsets x = y ∧ o ≤ z ∧ z < o + b ∧
        row = (flat blockOuter x * b, flat outer y * n + o) := by
  rw [mem_blockRows]
  constructor
  · rintro ⟨⟨x, hx, hin, rfl⟩, hcovers⟩
    obtain ⟨hrow, hz⟩ := (run_covers_iff hz ho).mp hcovers
    obtain rfl := flat_injective hin hy hrow
    exact ⟨x, hx, rfl, hz.1, hz.2, rfl⟩
  · rintro ⟨x, hx, rfl, hle, hlt, rfl⟩
    exact ⟨⟨x, hx, hy, rfl⟩, (run_covers_iff hz ho).mpr ⟨rfl, hle, hlt⟩⟩

open scoped Classical in
theorem cell_copyRows_blockRows {y : List ℕ} {z : ℕ} {v : Bytes} (hy : InBounds outer y)
    (hz : z < n) (hchunk : blockOuter.prod * b * w ≤ chunkData.length)
    (hout : output.length = outer.prod * n * w)
    (hv : ∀ x, InBounds blockOuter x → shift offsets x = y → o ≤ z → z < o + b →
      cell w chunkData (flat blockOuter x * b + (z - o)) = v) :
    cell w (copyRows chunkData w (min b (n - o)) (blockRows offsets outer blockOuter o n b) output)
        (flat outer y * n + z) =
      if ∃ x, InBounds blockOuter x ∧ shift offsets x = y ∧ o ≤ z ∧ z < o + b then v
      else cell w output (flat outer y * n + z) := by
  rcases lt_or_ge n o with ho | ho
  · -- the block starts behind the last cell of every row
    rw [copyRows_empty (by rw [Nat.sub_eq_zero_of_le (le_of_lt ho), min_zero,
      zero_mul]), if_neg]
    omega
  have hsrc (row : ℕ × ℕ) (h : row ∈ blockRows offsets outer blockOuter o n b) :
      (row.1 + min b (n - o)) * w ≤ chunkData.length :=
    (Nat.mul_le_mul_right w ((Nat.add_le_add_left (min_le_left ..) _).trans
      (blockRows_src row h))).trans hchunk
  have hdst (row : ℕ × ℕ) (h : row ∈ blockRows offsets outer blockOuter o n b) :
      (row.2 + min b (n - o)) * w ≤ output.length :=
    hout ▸ Nat.mul_le_mul_right w ((Nat.add_le_add_left (min_le_right ..) _).trans
      (blockRows_dst ho row h))
  rw [@cell_copyRows _ _ _ _ (flat outer y * n + z) _ v hsrc hdst]
  · congr 1
    simp only [blockRows_covers ho hy hz, eq_iff_iff]
    constructor
    · rintro ⟨-, x, hx, hy, hle, hlt, -⟩
      exact ⟨x, hx, hy, hle, hlt⟩
    · rintro ⟨x, hx, hy, hle, hlt⟩
      exact ⟨_, x, hx, hy, hle, hlt, rfl⟩
  · intro row hmem hcovers
    obtain ⟨x, hx, hshift, hle, hlt, rfl⟩ := (blockRows_covers ho hy hz).mp ⟨hmem, hcovers⟩
    rw [← hv x hx hshift hle hlt]
    congr 1
    omega

end

section

variable {dims blockDims offsets c : List ℕ} {w : ℕ} {chunkData output v : Bytes}

theorem exists_append_singleton {xs outer : List ℕ} {n : ℕ}
    (h : xs.length = (outer ++ [n]).length) :
    ∃ ys y, xs = ys ++ [y] ∧ ys.length = outer.length := by
  rw [length_append, length_singleton] at h
  have hne : xs ≠ [] := ne_nil_of_length_eq_add_one h
  refine ⟨xs.dropLast, xs.getLast hne, (dropLast_append_getLast hne).symm, ?_⟩
  rw [length_dropLast, h, Nat.add_sub_cancel]

open scoped Classical in
/-- Copying a whole chunk changes the cells of its block and no other. -/
theorem cell_copyChunkToOutput (hdims : dims ≠ []) (hoffsets : offsets.length = dims.length)
    (hblock : blockDims.length = dims.length) (hc : InBounds dims c)
    (hchunk : blockDims.prod * w ≤ chunkData.length) (hout : output.length = dims.prod * w)
    (hv : ∀ d, InBounds blockDims d → shift offsets d = c →
      cell w chunkData (flat blockDims d) = v) :
    cell w (copyChunkToOutput chunkData output offsets blockDims dims w) (flat dims c) =
      if ∃ d, InBounds blockDims d ∧ shift offsets d = c then v
      else cell w output (flat dims c) := by
  obtain ⟨outer, n, rfl⟩ := (eq_nil_or_concat' dims).resolve_left hdims
  obtain ⟨starts, o, rfl, hstarts⟩ := exists_append_singleton hoffsets
  obtain ⟨blockOuter, b, rfl, hblockOuter⟩ := exists_append_singleton hblock
  obtain ⟨y, z, rfl, hylen⟩ := exists_append_singleton hc.length_eq
  obtain ⟨hy, hz⟩ := (inBounds_append hylen).mp hc
  have hstart : starts.length = blockOuter.length := hstarts.trans hblockOuter.symm
  rw [copyChunkToOutput_eq hstarts hblockOuter, flat_append_singleton hy.length_eq,
    @cell_copyRows_blockRows _ _ _ _ _ _ _ _ _ _ _ v hy
      (inBounds_cons.mp hz).1 (by simpa using hchunk) (by simpa using hout)]
  · simp only [exists_block_append hstart]
  · intro x hx hshift hle hlt
    rw [← hv (x ++ [z - o]), flat_append_singleton hx.length_eq]
    · exact (inBounds_append hx.length_eq).mpr ⟨hx, by simp; omega⟩
    · rw [shift_append (hstart.trans hx.length_eq.symm), hshift, Nat.add_sub_of_le hle]

end

end ClawHdf5.Format
