import ClawHdf5.Format.ChunkCopy
import ClawHdf5.Format.ChunkRecord
import ClawHdf5.Math.PanicFree

/-!
# Assembling chunks by a plan

The copies that assemble a dataset from its chunks can be planned before the chunks are decoded: for
each chunk a list of runs, each contiguous in the chunk and in the output. The plan is kept in a
cache and carried out in one pass over the decoded chunks.
-/

namespace ClawHdf5.Format

open Fallible RowMajor Overwrite List Except

/-! ### Plans -/

/-- A run of bytes to be copied from a chunk into the output. -/
structure RowCopy where
  srcOffset : ℕ
  dstOffset : ℕ
  len : ℕ
  deriving DecidableEq

/-- The size of a `RowCopy` in memory: three words. -/
def rowCopySize : ℕ := 24

/-- A chunk, where it lies in the file, and its copies. -/
structure ChunkMapping where
  coord : List ℕ
  fileOffset : ℕ
  fileSize : ℕ
  filterMask : ℕ
  copies : List RowCopy
  deriving DecidableEq

/-- The plan for a dataset. -/
structure ChunkLayout where
  mappings : List ChunkMapping
  outputBytes : ℕ
  elemSize : ℕ
  chunkTotalBytes : ℕ
  deriving DecidableEq

/-- Plan the copies of a chunk, one for each row that lies in the dataset. Space for all rows of the
chunk is allocated first. -/
def computeRowCopies (chunkOffsets chunkDims dsDims : List ℕ) (elemSize : ℕ) :
    Run (List RowCopy) :=
  let inner := dsDims.length - 1
  let innerChunkLen := chunkDims.getD inner 0
  let innerDsLen := dsDims.getD inner 0
  let innerChunkOffset := chunkOffsets.getD inner 0
  let innerValid :=
    if innerDsLen ≤ innerChunkOffset then 0 else min innerChunkLen (innerDsLen - innerChunkOffset)
  if innerValid = 0 then .ok []
  else do
    let outerDims := chunkDims.take inner
    let outerCount := wrap outerDims.prod
    -- a vector of more than `isize::MAX` bytes
    reject (2 ^ 63 ≤ outerCount * rowCopySize) .panic
    .ok <| (range outerCount).filterMap fun outerFlat =>
      (rowStart false (chunkOffsets.take inner) (dsDims.take inner) (strides dsDims)
        (strides chunkDims) (strides outerDims) outerFlat 0 0).map fun (dsFlat, chunkFlat) =>
          ⟨chunkFlat * elemSize,
            (dsFlat + innerChunkOffset * (strides dsDims).getD inner 0) * elemSize,
            innerValid * elemSize⟩

def chunkMapping (dsDims chunkDims : List ℕ) (elemSize chunkTotalBytes outputBytes : ℕ)
    (info : ChunkInfo) : Run ChunkMapping := do
  let coord := info.offsets.take dsDims.length
  let copies ←
    if dsDims = [] then .ok [⟨0, 0, min chunkTotalBytes outputBytes⟩]
    else computeRowCopies coord chunkDims dsDims elemSize
  .ok ⟨coord, info.address, info.chunkSize, info.filterMask, copies⟩

/-- Plan the chunks of an index, in the order in which it is iterated. -/
def ChunkLayout.build (index : List ChunkInfo) (dsDims chunkDims : List ℕ) (elemSize : ℕ) :
    Run ChunkLayout := do
  let chunkTotalBytes := wrap (chunkDims.prod * elemSize)
  let outputBytes := wrap (dsDims.prod * elemSize)
  let mappings ← index.mapM (chunkMapping dsDims chunkDims elemSize chunkTotalBytes outputBytes)
  .ok ⟨mappings, outputBytes, elemSize, chunkTotalBytes⟩

def runCopies (data : Bytes) (copies : List RowCopy) (output : Bytes) : Bytes :=
  copies.foldl (fun output copy =>
    copyRun data output copy.srcOffset copy.dstOffset copy.len) output

/-- Carry out a plan on decoded chunks, which stand in the order of the mappings. -/
def ChunkLayout.assemble (layout : ChunkLayout) (chunkData : List Bytes) (output : Bytes) :
    Bytes :=
  (layout.mappings.zip chunkData).foldl (fun output (mapping, data) =>
    runCopies data mapping.copies output) output

/-! ### A plan copies as the direct copy does -/

section

variable {offsets outer blockOuter : List ℕ} {o n b w : ℕ}

/-- Whether a chunk can be planned: the space for its rows can be allocated. -/
def Plannable (chunkDims : List ℕ) : Prop := wrap chunkDims.dropLast.prod * rowCopySize < 2 ^ 63
  deriving Decidable

theorem innerValid_eq (o n b : ℕ) : (if n ≤ o then 0 else min b (n - o)) = min b (n - o) := by
  split_ifs with h
  · rw [Nat.sub_eq_zero_of_le h, min_zero]
  · rfl

theorem computeRowCopies_eq (hoffsets : offsets.length = outer.length)
    (hblock : blockOuter.length = outer.length) :
    computeRowCopies (offsets ++ [o]) (blockOuter ++ [b]) (outer ++ [n]) w =
      if min b (n - o) = 0 then .ok []
      else if 2 ^ 63 ≤ wrap blockOuter.prod * rowCopySize then .error .panic
      else .ok <| (range (wrap blockOuter.prod)).filterMap fun row =>
        if InBounds outer (shift offsets (unflatten blockOuter row)) then
          some ⟨flat blockOuter (unflatten blockOuter row) * b * w,
            (flat outer (shift offsets (unflatten blockOuter row)) * n + o) * w,
            min b (n - o) * w⟩
        else none := by
  have hinner : (outer ++ [n]).length - 1 = outer.length := by simp
  simp only [computeRowCopies, hinner, getD_append_length hoffsets, getD_append_length hblock,
    getD_append_length rfl, strides_append_getD, mul_one, take_left' hoffsets,
    take_left' hblock, take_left, innerValid_eq]
  split_ifs with hempty halloc
  · rfl
  · exact reject_bind_of halloc _
  · rw [reject_bind halloc]
    refine congrArg ok (filterMap_congr fun row _ => ?_)
    rw [rowStart_eq hoffsets hblock]
    split_ifs
    · simp
    · rfl

theorem runCopies_empty {data output : Bytes} {copies : List RowCopy}
    (h : ∀ copy ∈ copies, copy.len = 0) : runCopies data copies output = output := by
  induction copies with
  | nil => rfl
  | cons copy copies ih =>
    obtain ⟨hcopy, hcopies⟩ := forall_mem_cons.mp h
    rw [runCopies, foldl_cons, hcopy, copyRun_zero]
    exact ih hcopies

theorem runCopies_map (data output : Bytes) (len : ℕ) (rows : List (ℕ × ℕ)) :
    runCopies data (rows.map fun row => ⟨row.1 * w, row.2 * w, len * w⟩) output =
      copyRows data w len rows output := by
  rw [runCopies, foldl_map, copyRows]

/-- The copies that are planned for a chunk do what the direct copy does, if the number of its rows
is a machine word or the elements are empty. -/
theorem runCopies_computeRowCopies {dims blockDims start : List ℕ} (hdims : dims ≠ [])
    (hoffsets : start.length = dims.length) (hblock : blockDims.length = dims.length)
    (hsmall : w = 0 ∨ blockDims.dropLast.prod < 2 ^ 64) {copies : List RowCopy}
    (h : computeRowCopies start blockDims dims w = .ok copies) (data output : Bytes) :
    runCopies data copies output = copyChunkToOutput data output start blockDims dims w := by
  obtain ⟨outer, n, rfl⟩ := (eq_nil_or_concat' dims).resolve_left hdims
  obtain ⟨offsets, o, rfl, hstarts⟩ := exists_append_singleton hoffsets
  obtain ⟨blockOuter, b, rfl, hblockOuter⟩ := exists_append_singleton hblock
  rw [dropLast_concat] at hsmall
  rw [copyChunkToOutput_eq hstarts hblockOuter]
  rw [computeRowCopies_eq hstarts hblockOuter] at h
  by_cases hempty : min b (n - o) * w = 0
  · -- no row has bytes
    rw [copyRows_empty hempty]
    refine runCopies_empty fun copy hcopy => ?_
    split_ifs at h
    · rw [← ok.inj h] at hcopy
      cases hcopy
    · rw [← ok.inj h, mem_filterMap] at hcopy
      obtain ⟨row, -, hrow⟩ := hcopy
      split_ifs at hrow
      rw [← Option.some.inj hrow]
      exact hempty
  · have hw : w ≠ 0 := fun hw => hempty (by rw [hw, mul_zero])
    have hvalid : min b (n - o) ≠ 0 := fun hv => hempty (by rw [hv, zero_mul])
    rw [if_neg hvalid, wrap_of_lt (hsmall.resolve_left hw)] at h
    split_ifs at h
    rw [← ok.inj h, ← runCopies_map, blockRows, map_filterMap]
    congr 1
    refine filterMap_congr fun row _ => ?_
    dsimp only
    split_ifs <;> rfl

/-- A chunk of the grid is planned exactly if the space for its rows can be allocated. -/
theorem computeRowCopies_eq_ok_iff {dims blockDims start : List ℕ} (hdims : dims ≠ [])
    (hblock : blockDims.length = dims.length)
    (hpos : ∀ n ∈ blockDims, n ≠ 0) (hstart : InBounds dims start) :
    (∃ copies, computeRowCopies start blockDims dims w = .ok copies) ↔ Plannable blockDims := by
  obtain ⟨outer, n, rfl⟩ := (eq_nil_or_concat' dims).resolve_left hdims
  obtain ⟨offsets, o, rfl, hoffsets⟩ := exists_append_singleton hstart.length_eq
  obtain ⟨blockOuter, b, rfl, hblockOuter⟩ := exists_append_singleton hblock
  -- the last axis has elements in the dataset
  have ho : o < n := (inBounds_cons.mp ((inBounds_append hoffsets).mp hstart).2).1
  have hb : b ≠ 0 := hpos b (by simp)
  have hvalid : min b (n - o) ≠ 0 := by omega
  rw [computeRowCopies_eq hoffsets hblockOuter, if_neg hvalid, Plannable, dropLast_concat]
  split_ifs with halloc
  · constructor
    · rintro ⟨copies, h⟩
      cases h
    · intro h
      exact absurd h (not_lt.mpr halloc)
  · exact ⟨fun _ => Nat.lt_of_not_le halloc, fun _ => ⟨_, rfl⟩⟩

end

theorem computeRowCopies_of_chunkMapping {dsDims chunkDims : List ℕ} (hdims : dsDims ≠ [])
    {w total bytes : ℕ} {info : ChunkInfo} {mapping : ChunkMapping}
    (h : chunkMapping dsDims chunkDims w total bytes info = .ok mapping) :
    computeRowCopies (info.offsets.take dsDims.length) chunkDims dsDims w = .ok mapping.copies := by
  rw [chunkMapping, if_neg hdims, bind_ok_iff] at h
  obtain ⟨copies, hcopies, hmapping⟩ := h
  rw [← ok.inj hmapping, hcopies]

/-! ### The chunks of a grid -/

section

variable {dsDims chunkDims : List ℕ} {w : ℕ} {chunks : List (ChunkInfo × Bytes)}

/-- Decoded chunks, each with all its elements, at different places of the grid. Their bytes and
those of the dataset fit into vectors. -/
structure DecodedChunks (dsDims chunkDims : List ℕ) (w : ℕ) (chunks : List (ChunkInfo × Bytes)) :
    Prop where
  rank_pos : dsDims ≠ []
  length_eq : chunkDims.length = dsDims.length
  dims_pos : ∀ n ∈ chunkDims, n ≠ 0
  output_lt : dsDims.prod * w < 2 ^ 63
  aligned : ∀ chunk ∈ chunks, ∃ g, InBounds (chunkCounts dsDims chunkDims) g ∧
    chunk.1.offsets.take dsDims.length = gridOffsets g chunkDims
  full : ∀ chunk ∈ chunks, chunk.2.length = chunkDims.prod * w ∧ chunk.2.length < 2 ^ 63
  distinct : (chunks.map fun chunk => chunk.1.offsets.take dsDims.length).Nodup

/-- The buffer that holds each chunk's elements in their places, and zeros elsewhere. -/
structure Assembled (dsDims chunkDims : List ℕ) (w : ℕ) (chunks : List (ChunkInfo × Bytes))
    (output : Bytes) : Prop where
  length_eq : output.length = dsDims.prod * w
  covered : ∀ chunk ∈ chunks, ∀ d, InBounds chunkDims d →
    InBounds dsDims (shift (chunk.1.offsets.take dsDims.length) d) →
      cell w output (flat dsDims (shift (chunk.1.offsets.take dsDims.length) d)) =
        cell w chunk.2 (flat chunkDims d)
  uncovered : ∀ c, InBounds dsDims c →
    (∀ chunk ∈ chunks, ∀ d, InBounds chunkDims d →
      shift (chunk.1.offsets.take dsDims.length) d ≠ c) →
    cell w output (flat dsDims c) = replicate w 0

/-- The chunks over one cell of the dataset are one chunk of the grid. -/
theorem grid_unique {g g' d d' : List ℕ} (hg : g.length = chunkDims.length)
    (hg' : g'.length = chunkDims.length) (hd : InBounds chunkDims d) (hd' : InBounds chunkDims d')
    (h : shift (gridOffsets g chunkDims) d = shift (gridOffsets g' chunkDims) d') :
    g = g' ∧ d = d' := by
  induction hd generalizing g g' d' with
  | nil =>
    cases hd'
    rw [length_eq_zero_iff.mp hg, length_eq_zero_iff.mp hg']
    exact ⟨rfl, rfl⟩
  | @cons x n d chunkDims hx _ ih =>
    match g, g', d', hg, hg', hd' with
    | k :: g, k' :: g', x' :: d', hg, hg', hd' =>
      obtain ⟨hx', hrest'⟩ := inBounds_cons.mp hd'
      obtain ⟨hhead, htail⟩ := cons.inj h
      obtain ⟨rfl, rfl⟩ := mul_add_inj hx hx' hhead
      obtain ⟨rfl, rfl⟩ := ih (Nat.succ_injective hg) (Nat.succ_injective hg') hrest' htail
      exact ⟨rfl, rfl⟩

/-- The chunks of the grid start in the dataset. -/
theorem inBounds_gridOffsets (hpos : ∀ n ∈ chunkDims, n ≠ 0)
    (hlen : chunkDims.length = dsDims.length) {g : List ℕ}
    (hg : InBounds (chunkCounts dsDims chunkDims) g) :
    InBounds dsDims (gridOffsets g chunkDims) := by
  induction dsDims generalizing chunkDims g with
  | nil =>
    rw [length_eq_zero_iff.mp hg.length_eq]
    exact inBounds_nil
  | cons dim dsDims ih =>
    match chunkDims, g, hlen, hg with
    | chunk :: chunkDims, k :: g, hlen, hg =>
      obtain ⟨hchunk, hchunks⟩ := forall_mem_cons.mp hpos
      obtain ⟨hk, hrest⟩ := inBounds_cons.mp hg
      refine inBounds_cons.mpr ⟨?_, ih hchunks (Nat.succ_injective hlen) hrest⟩
      -- the count is rounded up
      have hle := (Nat.le_div_iff_mul_le (pos_of_ne_zero hchunk)).mp (Nat.succ_le_of_lt hk)
      rw [Nat.succ_mul] at hle
      dsimp only
      omega

variable (h : DecodedChunks dsDims chunkDims w chunks)
include h

theorem DecodedChunks.inBounds {chunk : ChunkInfo × Bytes} (hchunk : chunk ∈ chunks) :
    InBounds dsDims (chunk.1.offsets.take dsDims.length) := by
  obtain ⟨g, hg, hoffsets⟩ := h.aligned chunk hchunk
  rw [hoffsets]
  exact inBounds_gridOffsets h.dims_pos h.length_eq hg

/-- Over a cell of the dataset there is one chunk, and one cell of it. -/
theorem DecodedChunks.unique {chunk chunk' : ChunkInfo × Bytes} (hchunk : chunk ∈ chunks)
    (hchunk' : chunk' ∈ chunks) {d d' : List ℕ} (hd : InBounds chunkDims d)
    (hd' : InBounds chunkDims d')
    (hshift : shift (chunk.1.offsets.take dsDims.length) d =
      shift (chunk'.1.offsets.take dsDims.length) d') : chunk = chunk' ∧ d = d' := by
  obtain ⟨g, hg, hoffsets⟩ := h.aligned chunk hchunk
  obtain ⟨g', hg', hoffsets'⟩ := h.aligned chunk' hchunk'
  have hcounts : (chunkCounts dsDims chunkDims).length = chunkDims.length := by
    rw [length_chunkCounts, h.length_eq, min_self]
  rw [hoffsets, hoffsets'] at hshift
  obtain ⟨rfl, rfl⟩ := grid_unique (hg.length_eq.trans hcounts) (hg'.length_eq.trans hcounts) hd hd'
    hshift
  exact ⟨inj_on_of_nodup_map h.distinct hchunk hchunk' (hoffsets.trans hoffsets'.symm), rfl⟩

open scoped Classical in
/-- A cell of the dataset after the chunks were copied: the one that was copied to it, if any. -/
theorem DecodedChunks.cell_foldl {c : List ℕ} (hc : InBounds dsDims c) {output v : Bytes}
    (hout : output.length = dsDims.prod * w)
    (hv : ∀ chunk ∈ chunks, ∀ d, InBounds chunkDims d →
      shift (chunk.1.offsets.take dsDims.length) d = c → cell w chunk.2 (flat chunkDims d) = v) :
    cell w (chunks.foldl (fun output chunk => copyChunkToOutput chunk.2 output
        (chunk.1.offsets.take dsDims.length) chunkDims dsDims w) output) (flat dsDims c) =
      if ∃ chunk ∈ chunks, ∃ d, InBounds chunkDims d ∧
        shift (chunk.1.offsets.take dsDims.length) d = c then v
      else cell w output (flat dsDims c) := by
  refine foldl_write (fun b => cell w b (flat dsDims c)) (fun b => b.length = dsDims.prod * w)
    (fun chunk : ChunkInfo × Bytes => ∃ d, InBounds chunkDims d ∧
      shift (chunk.1.offsets.take dsDims.length) d = c) v ?_ ?_ hout
  · intro b chunk hb
    rw [length_copyChunkToOutput, hb]
  · intro chunk hchunk b hb
    exact cell_copyChunkToOutput h.rank_pos (h.inBounds hchunk).length_eq h.length_eq hc
      (h.full chunk hchunk).1.ge hb (hv chunk hchunk)

/-- Copied into zeros, the chunks of a grid are in their places. -/
theorem DecodedChunks.assembled_foldl : Assembled dsDims chunkDims w chunks
      (chunks.foldl (fun output chunk => copyChunkToOutput chunk.2 output
        (chunk.1.offsets.take dsDims.length) chunkDims dsDims w)
          (replicate (dsDims.prod * w) 0)) := by
  have hzeros : (replicate (dsDims.prod * w) (0 : UInt8)).length = dsDims.prod * w :=
    length_replicate
  refine ⟨?_, ?_, ?_⟩
  · exact foldlRecOn (motive := fun b : Bytes => b.length = dsDims.prod * w) _ _ hzeros
      fun b hb chunk _ => (length_copyChunkToOutput ..).trans hb
  · intro chunk hchunk d hd hc
    rw [h.cell_foldl hc hzeros, if_pos ⟨chunk, hchunk, d, hd, rfl⟩]
    -- no other chunk has contents for the cell
    intro chunk' hchunk' d' hd' hshift
    obtain ⟨rfl, rfl⟩ := h.unique hchunk' hchunk hd' hd hshift
    rfl
  · intro c hc hnone
    have hv : ∀ chunk ∈ chunks, ∀ d, InBounds chunkDims d →
        shift (chunk.1.offsets.take dsDims.length) d = c →
          cell w chunk.2 (flat chunkDims d) = ([] : Bytes) :=
      fun chunk hchunk d hd hshift => absurd hshift (hnone chunk hchunk d hd)
    rw [h.cell_foldl hc hzeros hv, if_neg, cell_replicate 0 (flat_lt hc)]
    rintro ⟨chunk, hchunk, d, hd, hshift⟩
    exact hnone chunk hchunk d hd hshift

/-- The number of rows of a chunk is a machine word, or its elements are empty. -/
theorem DecodedChunks.small {chunk : ChunkInfo × Bytes} (hchunk : chunk ∈ chunks) :
    w = 0 ∨ chunkDims.dropLast.prod < 2 ^ 64 := by
  refine or_iff_not_imp_left.mpr fun hw => ?_
  obtain ⟨hfull, hlt⟩ := h.full chunk hchunk
  rw [hfull] at hlt
  have hne : chunkDims ≠ [] := by
    intro hnil
    exact h.rank_pos (length_eq_zero_iff.mp (h.length_eq.symm.trans (by rw [hnil]; rfl)))
  have hlast : 0 < chunkDims.getLast hne := pos_of_ne_zero (h.dims_pos _ (getLast_mem hne))
  rw [← dropLast_append_getLast hne, prod_append, prod_singleton] at hlt
  calc chunkDims.dropLast.prod
      ≤ chunkDims.dropLast.prod * chunkDims.getLast hne := Nat.le_mul_of_pos_right _ hlast
    _ ≤ chunkDims.dropLast.prod * chunkDims.getLast hne * w :=
        Nat.le_mul_of_pos_right _ (pos_of_ne_zero hw)
    _ < 2 ^ 64 := by omega

/-- The chunks can be planned exactly if there are none or the space for the rows of one can be
allocated. -/
theorem DecodedChunks.build_eq_ok_iff :
    (∃ layout, ChunkLayout.build (chunks.map (·.1)) dsDims chunkDims w = .ok layout) ↔
      chunks = [] ∨ Plannable chunkDims := by
  have hmapping (total bytes : ℕ) {chunk : ChunkInfo × Bytes} (hchunk : chunk ∈ chunks) :
      (∃ mapping, chunkMapping dsDims chunkDims w total bytes chunk.1 = .ok mapping) ↔
        Plannable chunkDims := by
    rw [← @computeRowCopies_eq_ok_iff w _ _ _ h.rank_pos h.length_eq h.dims_pos (h.inBounds hchunk)]
    constructor
    · rintro ⟨mapping, hmapping⟩
      exact ⟨mapping.copies, computeRowCopies_of_chunkMapping h.rank_pos hmapping⟩
    · rintro ⟨copies, hcopies⟩
      rw [chunkMapping, if_neg h.rank_pos, hcopies]
      exact ⟨_, rfl⟩
  have hbuild : (∃ layout, ChunkLayout.build (chunks.map (·.1)) dsDims chunkDims w = .ok layout) ↔
      ∃ mappings, (chunks.map (·.1)).mapM (chunkMapping dsDims chunkDims w
        (wrap (chunkDims.prod * w)) (wrap (dsDims.prod * w))) = .ok mappings := by
    simp only [ChunkLayout.build, bind_ok_iff]
    constructor
    · rintro ⟨layout, mappings, hmappings, -⟩
      exact ⟨mappings, hmappings⟩
    · rintro ⟨mappings, hmappings⟩
      exact ⟨_, mappings, hmappings, rfl⟩
  rw [hbuild, exists_mapM_eq_ok, forall_mem_map]
  constructor
  · intro hall
    cases chunks with
    | nil => exact .inl rfl
    | cons chunk chunks =>
      exact .inr ((hmapping _ _ mem_cons_self).mp (hall chunk mem_cons_self))
  · intro hor chunk hchunk
    exact (hmapping _ _ hchunk).mpr (hor.resolve_left (ne_nil_of_mem hchunk))

/-- A plan copies the chunks as the direct copy does. -/
theorem DecodedChunks.assemble_eq {layout : ChunkLayout}
    (hlayout : ChunkLayout.build (chunks.map (·.1)) dsDims chunkDims w = .ok layout)
    (output : Bytes) :
    layout.assemble (chunks.map (·.2)) output =
      chunks.foldl (fun output chunk => copyChunkToOutput chunk.2 output
        (chunk.1.offsets.take dsDims.length) chunkDims dsDims w) output := by
  rw [ChunkLayout.build, bind_ok_iff] at hlayout
  obtain ⟨mappings, hmappings, hlayout⟩ := hlayout
  rw [mapM_eq_ok, forall₂_map_left_iff] at hmappings
  have hcopies : ∀ chunk ∈ chunks, ∀ mapping : ChunkMapping, chunkMapping dsDims chunkDims w
      (wrap (chunkDims.prod * w)) (wrap (dsDims.prod * w)) chunk.1 = .ok mapping → ∀ output,
        runCopies chunk.2 mapping.copies output = copyChunkToOutput chunk.2 output
          (chunk.1.offsets.take dsDims.length) chunkDims dsDims w := by
    intro chunk hchunk mapping hmapping output
    exact runCopies_computeRowCopies h.rank_pos (h.inBounds hchunk).length_eq h.length_eq
      (h.small hchunk) (computeRowCopies_of_chunkMapping h.rank_pos hmapping) _ _
  rw [← ok.inj hlayout, ChunkLayout.assemble]
  clear h hlayout
  -- chunk by chunk
  induction hmappings generalizing output with
  | nil => rfl
  | @cons chunk mapping chunks mappings hmapping _ ih =>
    obtain ⟨hchunk, hchunks⟩ := forall_mem_cons.mp hcopies
    simp only [map_cons, zip_cons_cons, foldl_cons]
    rw [hchunk mapping hmapping]
    exact ih _ hchunks

end

/-- For the chunks of a grid, the direct copy puts every element in its place. A plan does so
exactly if there is nothing to plan or the space for the rows of a chunk can be allocated. -/
theorem assembled_iff {dsDims chunkDims : List ℕ} {w : ℕ} {chunks : List (ChunkInfo × Bytes)}
    (h : DecodedChunks dsDims chunkDims w chunks) :
    Assembled dsDims chunkDims w chunks
        (chunks.foldl (fun output chunk => copyChunkToOutput chunk.2 output
          (chunk.1.offsets.take dsDims.length) chunkDims dsDims w)
            (replicate (dsDims.prod * w) 0)) ∧
      (∃ layout, ChunkLayout.build (chunks.map (·.1)) dsDims chunkDims w = .ok layout ∧
        Assembled dsDims chunkDims w chunks
          (layout.assemble (chunks.map (·.2)) (replicate layout.outputBytes 0))) ↔
      chunks = [] ∨ Plannable chunkDims := by
  rw [and_iff_right h.assembled_foldl, ← h.build_eq_ok_iff]
  constructor
  · rintro ⟨layout, hlayout, -⟩
    exact ⟨layout, hlayout⟩
  · rintro ⟨layout, hlayout⟩
    refine ⟨layout, hlayout, ?_⟩
    have hbytes : layout.outputBytes = dsDims.prod * w := by
      rw [ChunkLayout.build, bind_ok_iff] at hlayout
      obtain ⟨mappings, -, heq⟩ := hlayout
      rw [← ok.inj heq]
      exact wrap_of_lt (h.output_lt.trans (by decide))
    rw [h.assemble_eq hlayout, hbytes]
    exact h.assembled_foldl

/-- Two of the six chunks of a dataset of three rows and five columns. The second reaches over its
corner. -/
def raggedChunks : List (ChunkInfo × Bytes) :=
  [(⟨4, 0, [0, 2, 0], 100⟩, [1, 2, 3, 4]), (⟨4, 0, [2, 4, 0], 200⟩, [5, 6, 7, 8])]

theorem decodedChunks_ragged : DecodedChunks [3, 5] [2, 2] 1 raggedChunks where
  rank_pos := by decide
  length_eq := rfl
  dims_pos := by decide
  output_lt := by decide
  aligned := by
    refine forall_mem_cons.mpr ⟨⟨[0, 1], ?_, rfl⟩, forall_mem_singleton.mpr ⟨[1, 2], ?_, rfl⟩⟩
    · simp [chunkCounts]
    · simp [chunkCounts]
  full := by decide
  distinct := by decide

theorem assembled_ragged :
    ∃ layout, ChunkLayout.build (raggedChunks.map (·.1)) [3, 5] [2, 2] 1 = .ok layout ∧
      Assembled [3, 5] [2, 2] 1 raggedChunks
        (layout.assemble (raggedChunks.map (·.2)) (replicate layout.outputBytes 0)) :=
  ((assembled_iff decodedChunks_ragged).mpr (.inr (by decide))).2

example : raggedChunks.foldl (fun output chunk => copyChunkToOutput chunk.2 output
    (chunk.1.offsets.take 2) [2, 2] [3, 5] 1) (replicate 15 0) =
      [0, 0, 1, 2, 0, 0, 0, 3, 4, 0, 0, 0, 0, 0, 5] := by decide

/-- The space for the rows of a large chunk of empty elements cannot be allocated. -/
theorem build_capacity_overflow :
    DecodedChunks [1, 1, 1] [2 ^ 31, 2 ^ 31, 1] 0 [(⟨0, 0, [0, 0, 0], 100⟩, [])] ∧
      ChunkLayout.build [⟨0, 0, [0, 0, 0], 100⟩] [1, 1, 1] [2 ^ 31, 2 ^ 31, 1] 0 =
        .error .panic := by
  refine ⟨⟨by decide, rfl, by decide, by decide, ?_, by decide, by decide⟩, by decide⟩
  refine forall_mem_singleton.mpr ⟨[0, 0, 0], ?_, rfl⟩
  simp [chunkCounts]

end ClawHdf5.Format
