import ClawHdf5.Merkle.Soundness

/-!
# Chunk grids

The parameters of a chunk grid, the hash that binds them, and the size of the Merkle tree
over the grid. A grid arrives over the wire, so its size is computed with checked
arithmetic and bounded before anything is swept.
-/

namespace ClawHdf5.Subset

open Bytes Fallible MachineInt Merkle List

/-- Whether the grid is one of real chunks or one laid over a contiguous byte stream. -/
inductive LayoutClass | chunked | contiguous
  deriving DecidableEq

def LayoutClass.toByte : LayoutClass → UInt8
  | .chunked => 0
  | .contiguous => 1

structure ChunkGridParams where
  layoutClass : LayoutClass
  dims : List UInt64
  chunkShape : List UInt64
  elemSize : UInt32
  gridHash : Hash
  deriving DecidableEq

/-- The bytes the grid hash is taken of. -/
def gridPreimage (dims chunkShape : List UInt64) (elemSize : UInt32)
    (layoutClass : LayoutClass) : Bytes :=
  gridPrefix :: layoutClass.toByte ::
    (le32 elemSize ++ dims.flatMap le64 ++ chunkShape.flatMap le64)

/-- The hash that binds the grid parameters. -/
def computeGridHash (H : Hashers) (dims chunkShape : List UInt64) (elemSize : UInt32)
    (layoutClass : LayoutClass) (alg : HashAlg) : Hash :=
  alg.hashRaw H (gridPreimage dims chunkShape elemSize layoutClass)

namespace ChunkGridParams

/-- Grid parameters with their hash. -/
def new (H : Hashers) (dims chunkShape : List UInt64) (elemSize : UInt32)
    (layoutClass : LayoutClass) (alg : HashAlg) : ChunkGridParams where
  layoutClass := layoutClass
  dims := dims
  chunkShape := chunkShape
  elemSize := elemSize
  gridHash := computeGridHash H dims chunkShape elemSize layoutClass alg

def preimage (grid : ChunkGridParams) : Bytes :=
  gridPreimage grid.dims grid.chunkShape grid.elemSize grid.layoutClass

/-- The number of chunks on each axis. -/
def nChunksPerDim (grid : ChunkGridParams) : List UInt64 :=
  zipWith (fun d c => if c = 0 then 0 else divCeil d c) grid.dims grid.chunkShape

/-- The number of chunks, as a wrapping product. -/
def totalChunkCount (grid : ChunkGridParams) : UInt64 :=
  grid.nChunksPerDim.foldl (fun total n => total * n) 1

end ChunkGridParams

/-- Reject mismatched axis counts and zero chunk extents. -/
def validateGridShape (grid : ChunkGridParams) : Except MerkleError Unit := do
  reject (grid.dims.length ≠ grid.chunkShape.length) .companionTampered
  reject (0 ∈ grid.chunkShape) .companionTampered

/-- The deepest tree a grid may imply. -/
def maxTreeDepth : ℕ := 40

/-- The product of the chunk counts, with an error on overflow. -/
def checkedChunkCount : UInt64 → List (UInt64 × UInt64) → Except MerkleError UInt64
  | total, [] => .ok total
  | total, (d, c) :: axes => do
    let total ← okOr (.treeTooDeep (2 ^ 64 - 1)) (checkedMul total (divCeil d c))
    checkedChunkCount total axes

def checkedPaddedLeafCount (grid : ChunkGridParams) : Except MerkleError ℕ := do
  validateGridShape grid
  let total ← checkedChunkCount 1 (grid.dims.zip grid.chunkShape)
  let paddedCount := nextPowerOfTwo total.toNat
  -- no power of two above `total` fits a `usize`
  reject (2 ^ 64 ≤ paddedCount) (.treeTooDeep (2 ^ 64 - 1))
  let depth := Nat.log2 paddedCount + 1
  reject (depth > maxTreeDepth) (.treeTooDeep depth)
  .ok paddedCount

/-! ### The grid hash -/

theorem LayoutClass.toByte_injective : Function.Injective LayoutClass.toByte := by
  intro a b h
  cases a <;> cases b <;> first | rfl | exact absurd h (by decide)

theorem length_flatMap_le64 (xs : List UInt64) : (xs.flatMap le64).length = 8 * xs.length := by
  simp [mul_comm]

/-- The hashed bytes determine the parameters of a grid that has as many extents as
dimensions: the total length tells how many. -/
theorem gridPreimage_inj {dims dims' shape shape' : List UInt64} {size size' : UInt32}
    {layout layout' : LayoutClass} (hlen : dims.length = shape.length)
    (hlen' : dims'.length = shape'.length)
    (h : gridPreimage dims shape size layout = gridPreimage dims' shape' size' layout') :
    dims = dims' ∧ shape = shape' ∧ size = size' ∧ layout = layout' := by
  obtain ⟨-, htail⟩ := cons.inj h
  obtain ⟨hlayout, hbody⟩ := cons.inj htail
  have hshape : shape.length = shape'.length := by
    have := congrArg length hbody
    simp only [length_append, length_le32, length_flatMap_le64] at this
    omega
  obtain ⟨hhead, hshapes⟩ := append_inj' hbody (by rw [length_flatMap_le64,
    length_flatMap_le64, hshape])
  obtain ⟨hsize, hdims⟩ := append_inj hhead (by simp)
  exact ⟨flatMap_inj_of_length (by decide) length_le64 le64_injective hdims,
    flatMap_inj_of_length (by decide) length_le64 le64_injective hshapes, le32_injective hsize,
    LayoutClass.toByte_injective hlayout⟩

/-! ### The size of the tree -/

theorem checkedChunkCount_eq_ok {total result : UInt64} {axes : List (UInt64 × UInt64)} :
    checkedChunkCount total axes = .ok result →
      result.toNat = total.toNat * (axes.map fun a => (divCeil a.1 a.2).toNat).prod := by
  induction axes generalizing total with
  | nil =>
    intro h
    simp [← Except.ok.inj h]
  | cons a axes ih =>
    intro h
    obtain ⟨next, hnext, hrest⟩ := bind_ok_iff.mp h
    rw [okOr_eq_ok, checkedMul_eq_some] at hnext
    rw [ih hrest, hnext, map_cons, prod_cons, mul_assoc]

/-- The exact number of chunks. -/
def ChunkGridParams.chunkTotal (grid : ChunkGridParams) : ℕ :=
  (grid.nChunksPerDim.map UInt64.toNat).prod

/-- What a successful size check establishes. -/
structure ValidGrid (grid : ChunkGridParams) (paddedCount : ℕ) : Prop where
  length_eq : grid.dims.length = grid.chunkShape.length
  ne_zero : 0 ∉ grid.chunkShape
  paddedCount_eq : paddedCount = nextPowerOfTwo grid.chunkTotal
  height : ∃ a ≤ 39, paddedCount = 2 ^ a

theorem chunkTotal_eq_prod {grid : ChunkGridParams} (hzero : 0 ∉ grid.chunkShape) :
    grid.chunkTotal =
      ((grid.dims.zip grid.chunkShape).map fun a => (divCeil a.1 a.2).toNat).prod := by
  unfold ChunkGridParams.chunkTotal ChunkGridParams.nChunksPerDim
  rw [← map_uncurry_zip_eq_zipWith, map_map]
  congr 1
  apply map_congr_left
  intro a ha
  have hne : a.2 ≠ 0 := fun h => hzero (h ▸ (of_mem_zip ha).2)
  simp [Function.uncurry, hne]

theorem toNat_foldl_mul (ns : List UInt64) (total : UInt64) :
    (ns.foldl (fun total n => total * n) total).toNat =
      total.toNat * (ns.map UInt64.toNat).prod % 2 ^ 64 := by
  induction ns generalizing total with
  | nil => simp
  | cons n ns ih =>
    rw [foldl_cons, ih, UInt64.toNat_mul, map_cons, prod_cons, ← mul_assoc, Nat.mod_mul_mod]

theorem validGrid_of_checked {grid : ChunkGridParams} {paddedCount : ℕ}
    (h : checkedPaddedLeafCount grid = .ok paddedCount) : ValidGrid grid paddedCount := by
  simp only [checkedPaddedLeafCount, validateGridShape, bind_ok_iff, reject_eq_ok, exists_const,
    not_not, Except.ok.injEq] at h
  obtain ⟨⟨hlen, hzero⟩, total, htotal, -, hdepth, rfl⟩ := h
  have hcount : total.toNat = grid.chunkTotal := by
    rw [checkedChunkCount_eq_ok htotal, chunkTotal_eq_prod hzero, UInt64.toNat_one, one_mul]
  obtain ⟨a, ha⟩ := exists_nextPowerOfTwo total.toNat
  refine ⟨hlen, hzero, by rw [hcount], a, ?_, ha⟩
  rw [ha, Nat.log2_two_pow, maxTreeDepth] at hdepth
  omega

namespace ValidGrid

variable {grid : ChunkGridParams} {paddedCount : ℕ} (h : ValidGrid grid paddedCount)

include h

theorem chunkTotal_le : grid.chunkTotal ≤ paddedCount := by
  rw [h.paddedCount_eq]
  exact le_nextPowerOfTwo _

theorem paddedCount_le : paddedCount ≤ 2 ^ 39 := by
  obtain ⟨a, ha, hpow⟩ := h.height
  rw [hpow]
  exact Nat.pow_le_pow_right two_pos ha

theorem toNat_totalChunkCount : grid.totalChunkCount.toNat = grid.chunkTotal := by
  have hle := h.chunkTotal_le.trans h.paddedCount_le
  rw [ChunkGridParams.totalChunkCount, toNat_foldl_mul, UInt64.toNat_one, one_mul]
  exact Nat.mod_eq_of_lt (hle.trans_lt (by decide))

end ValidGrid

end ClawHdf5.Subset
