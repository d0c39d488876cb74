import ClawHdf5.Format.ChunkedRead
import ClawHdf5.Format.ChunkedWrite

/-!
# Chunked datasets are read back as they were written

Cutting a dataset into chunks and copying the chunks back is the identity, because every cell of
the dataset lies in some chunk and a chunk holds the dataset's elements. The rest of the argument
follows the bytes: the layout and pipeline messages are parsed to what was serialized, the index
lists the chunks that were written, and each chunk is found in the file at the address its record
gives.
-/

namespace ClawHdf5.Format

open Fallible RowMajor Overwrite List Nat WrittenChunk

/-! ### Cutting and copying back -/

section

variable {rawData : Bytes} {shape chunkDims : List ℕ} {w : ℕ} {chunks : List (List ℕ × Bytes)}

/-- A dataset that was cut into chunks. -/
structure CutInto (rawData : Bytes) (shape chunkDims : List ℕ) (w : ℕ)
    (chunks : List (List ℕ × Bytes)) : Prop where
  length_rawData : rawData.length = shape.prod * w
  shape_ne_nil : shape ≠ []
  length_chunkDims : chunkDims.length = shape.length
  chunkDims_ne_zero : ∀ n ∈ chunkDims, n ≠ 0
  split_eq : splitIntoChunks rawData shape chunkDims w = .ok chunks

/-- The chunks of a dataset, by the cells of the grid. -/
theorem CutInto.chunks_eq (h : CutInto rawData shape chunkDims w chunks) :
    chunks = (range (chunkCounts shape chunkDims).prod).map fun k =>
      let offsets := gridOffsets (unflatten (chunkCounts shape chunkDims) k) chunkDims
      (offsets, (range chunkDims.prod).flatMap
        (chunkElement rawData shape chunkDims offsets w)) := by
  have hdims := h.length_chunkDims
  have hsplit := h.split_eq
  have htake : chunkDims.take shape.length = chunkDims := by
    rw [← hdims, take_length]
  rw [splitIntoChunks] at hsplit
  rw [if_neg (mt length_eq_zero_iff.mp h.shape_ne_nil), htake,
    if_neg (not_or.mpr ⟨by omega, fun h0 => h.chunkDims_ne_zero 0 h0 rfl⟩), Except.ok.injEq]
    at hsplit
  rw [← hsplit]
  refine map_congr_left fun k hk => ?_
  rw [digits_eq, mod_eq_of_lt (mem_range.mp hk)]

/-- What a chunk of the dataset is. -/
structure IsChunk (rawData : Bytes) (shape chunkDims : List ℕ) (w : ℕ) (chunk : List ℕ × Bytes) :
    Prop where
  length_offsets : chunk.1.length = shape.length
  length_bytes : chunk.2.length = chunkDims.prod * w
  cell_eq {d : List ℕ} : InBounds chunkDims d → InBounds shape (shift chunk.1 d) →
    cell w chunk.2 (flat chunkDims d) = cell w rawData (flat shape (shift chunk.1 d))

theorem CutInto.isChunk (h : CutInto rawData shape chunkDims w chunks) :
    ∀ chunk ∈ chunks, IsChunk rawData shape chunkDims w chunk := by
  intro chunk hchunk
  rw [h.chunks_eq, mem_map] at hchunk
  obtain ⟨k, hk, rfl⟩ := hchunk
  have hoffsets : (gridOffsets (unflatten (chunkCounts shape chunkDims) k) chunkDims).length =
      shape.length := by
    simp [gridOffsets, h.length_chunkDims]
  refine ⟨hoffsets, ?_, fun hd hin => ?_⟩
  · rw [length_slots length_chunkElement, length_range]
  · rw [← chunkElement_eq h.length_rawData hoffsets h.length_chunkDims hd hin]
    exact cell_flatMap length_chunkElement (getElem?_range (flat_lt hd))

@[simp] theorem length_placeChunk (chunkData output : Bytes) (offsets chunkDims dsDims : List ℕ)
    (elemSize : ℕ) :
    (placeChunk chunkData output offsets chunkDims dsDims elemSize).length = output.length := by
  rw [placeChunk]
  split_ifs
  · simp only [length_overwrite (zero_le _), length_take]
    omega
  · exact length_copyChunkToOutput ..

/-- Copying chunks back keeps every cell that already is the dataset's, and makes those of the
chunks' blocks so. -/
theorem CutInto.cell_foldl (h : CutInto rawData shape chunkDims w chunks)
    {sub : List (List ℕ × Bytes)} (hsub : ∀ chunk ∈ sub, chunk ∈ chunks) {output : Bytes}
    {c : List ℕ} (hc : InBounds shape c) (hout : output.length = shape.prod * w)
    (hor : cell w output (flat shape c) = cell w rawData (flat shape c) ∨
      ∃ chunk ∈ sub, ∃ d, InBounds chunkDims d ∧ shift chunk.1 d = c) :
    cell w (sub.foldl (fun output chunk =>
        placeChunk chunk.2 output chunk.1 chunkDims shape w) output) (flat shape c) =
      cell w rawData (flat shape c) := by
  induction sub generalizing output with
  | nil => exact hor.resolve_right (by simp)
  | cons chunk sub ih =>
    obtain ⟨hmem, hsub⟩ := forall_mem_cons.mp hsub
    have hchunk := h.isChunk chunk hmem
    rw [exists_mem_cons_iff, ← or_assoc] at hor
    refine ih hsub ((length_placeChunk ..).trans hout) (hor.imp_left fun hor => ?_)
    dsimp only
    rw [placeChunk, if_neg h.shape_ne_nil, take_of_length_le hchunk.length_offsets.le,
      cell_copyChunkToOutput h.shape_ne_nil hchunk.length_offsets h.length_chunkDims hc
        hchunk.length_bytes.ge hout]
    · split_ifs with hblock
      · rfl
      · exact hor.resolve_right hblock
    · rintro d hd rfl
      exact hchunk.cell_eq hd hc

theorem length_foldl_placeChunk (output : Bytes) : (chunks.foldl (fun output chunk =>
      placeChunk chunk.2 output chunk.1 chunkDims shape w) output).length = output.length := by
  induction chunks generalizing output with
  | nil => rfl
  | cons chunk chunks ih => exact (ih _).trans (length_placeChunk ..)

/-- Cutting a dataset into chunks and copying the chunks back is the identity. -/
theorem CutInto.foldl_placeChunk (h : CutInto rawData shape chunkDims w chunks) :
    chunks.foldl (fun output chunk => placeChunk chunk.2 output chunk.1 chunkDims shape w)
      (replicate (shape.prod * w) 0) = rawData := by
  have hzeros : (replicate (shape.prod * w) (0 : UInt8)).length = shape.prod * w := length_replicate
  refine eq_of_cell_eq ((length_foldl_placeChunk _).trans hzeros) h.length_rawData fun p hp => ?_
  rw [← flat_unflatten hp]
  have hc := inBounds_unflatten hp
  refine h.cell_foldl (fun _ hmem => hmem) hc hzeros (.inr ?_)
  -- the cell lies in the chunk whose grid coordinates are the quotients of its own
  obtain ⟨g, d, hg, hd, hshift⟩ := exists_grid_cell h.chunkDims_ne_zero h.length_chunkDims hc
  rw [h.chunks_eq]
  refine ⟨_, mem_map_of_mem (mem_range.mpr (flat_lt hg)), d, hd, ?_⟩
  rw [unflatten_flat hg]
  exact hshift

end

/-! ### Chunks in the file -/

section

variable {codecs : Codecs} {decompressChunk : Bytes → FilterPipeline → ℕ → ℕ → Run Bytes}
  {pipeline : Option FilterPipeline} {elementSize baseAddress : ℕ} {file blob rawData : Bytes}
  {shape chunkDims : List ℕ} {chunks : List (List ℕ × Bytes)} {written : List WrittenChunk}
  {chunk : List ℕ × Bytes} {record : WrittenChunk}

/-- What is assumed of a chunk: its size and its stored size are words of 32 bits, and undoing the
filters gives it back. -/
structure Recoverable (codecs : Codecs)
    (decompressChunk : Bytes → FilterPipeline → ℕ → ℕ → Run Bytes)
    (pipeline : Option FilterPipeline) (elementSize : ℕ) (bytes : Bytes) : Prop where
  length_lt : bytes.length < 2 ^ 32
  stored_lt : ∀ out, storeChunk codecs pipeline elementSize bytes = .ok out → out.length < 2 ^ 32
  decompress_eq : ∀ pl ∈ pipeline, ∀ out, compressChunk codecs bytes pl elementSize = .ok out →
    decompressChunk out pl bytes.length elementSize = .ok bytes

/-- A chunk was stored in a blob, with a record of it. -/
def Stored (codecs : Codecs) (pipeline : Option FilterPipeline) (elementSize baseAddress : ℕ)
    (blob : Bytes) (chunk : List ℕ × Bytes) (written : WrittenChunk) : Prop :=
  ∃ out, storeChunk codecs pipeline elementSize chunk.2 = .ok out ∧
    Laid baseAddress blob (chunk.2.length, out) written

theorem forall_stored {cacheLineSize : ℕ} {chunks : List (List ℕ × Bytes)} {outs : List Bytes}
    (h : compressAllChunks codecs chunks pipeline elementSize = .ok outs) (rest : Bytes) :
    let laid := layOutChunks cacheLineSize baseAddress
      (zipWith (fun raw bytes => (raw.2.length, bytes)) chunks outs) []
    Forall₂ (Stored codecs pipeline elementSize baseAddress (laid.1 ++ rest)) chunks
      laid.2 := by
  intro laid
  have hlaid := @forall_laid cacheLineSize baseAddress
    (zipWith (fun raw bytes => (raw.2.length, bytes)) chunks outs) []
  have hstore := mapM_eq_ok.mp h
  -- both relations are followed along the list of chunks
  generalize laid.1 = blob at hlaid
  generalize laid.2 = written at hlaid
  induction hstore generalizing written with
  | nil => rw [forall₂_nil_left_iff.mp hlaid]; exact .nil
  | @cons chunk out chunks outs hout _ ih =>
    obtain ⟨record, written, hrecord, hwritten, rfl⟩ := forall₂_cons_left_iff.mp hlaid
    exact .cons ⟨out, hout, hrecord.append rest⟩ (ih (mapM_eq_ok.mpr ‹_›) _ hwritten)

theorem Stored.standsAt (hblob : StandsAt file baseAddress blob)
    (hstored : Stored codecs pipeline elementSize baseAddress blob chunk record) :
    ∃ out, storeChunk codecs pipeline elementSize chunk.2 = .ok out ∧
      record.compressedSize = out.length ∧ record.rawSize = chunk.2.length ∧
      record.filterMask = 0 ∧ StandsAt file record.address out := by
  obtain ⟨out, hout, hlaid⟩ := hstored
  obtain ⟨pos, haddress, hpos⟩ := hlaid.stands
  exact ⟨out, hout, hlaid.compressedSize_eq, hlaid.rawSize_eq, hlaid.filterMask_eq,
    haddress ▸ hblob.trans hpos⟩

section

variable (hfile : file.length < 2 ^ 63) (hblob : StandsAt file baseAddress blob)
  (hstored : Stored codecs pipeline elementSize baseAddress blob chunk record)
  (hchunk : Recoverable codecs decompressChunk pipeline elementSize chunk.2)
include hfile hblob hstored hchunk

/-- A stored chunk is found in the file, and the filters are undone. -/
theorem chunkData_eq :
    chunkData decompressChunk file pipeline chunk.2.length elementSize (record.info chunk.1) =
      .ok chunk.2 := by
  obtain ⟨out, hout, hsize, -, hmask, hstands⟩ := hstored.standsAt hblob
  have hle := hstands.le
  have hread : storedChunk file (record.info chunk.1) = .ok out := by
    simp only [storedChunk, info, hsize]
    rw [reject_bind (by omega), reject_bind (by omega), slice_of_standsAt hstands]
  rw [chunkData, hread]
  cases pipeline with
  | none => exact hout.symm
  | some pl =>
    simp only [info, hmask]
    exact hchunk.decompress_eq pl rfl out hout

/-- The record of a stored chunk can be read back from its element of an index. -/
theorem fits_of_stored {sizeBytes : ℕ}
    (hsize : pipeline.isSome → record.compressedSize < 256 ^ sizeBytes) :
    record.Fits pipeline.isSome sizeBytes chunk.2.length := by
  obtain ⟨out, hout, hcompressed, -, hmask, hstands⟩ := hstored.standsAt hblob
  have hle := hstands.le
  have hstored := hchunk.stored_lt out hout
  have hraw := hchunk.length_lt
  refine ⟨⟨by omega, by omega⟩, ?_⟩
  rw [readBack, if_neg (by omega)]
  cases pipeline with
  | none =>
    obtain rfl := Except.ok.inj hout
    simp only [Option.isSome_none, Bool.false_eq_true, if_false, mod_eq_of_lt hraw,
      hcompressed, hmask]
  | some pl =>
    rw [Option.isSome_some, if_pos rfl, mod_eq_of_lt (hsize rfl), mod_eq_of_lt (by omega)]

end

/-! ### The index -/

/-- The chunks as the reader lists them. -/
def chunkInfos (chunks : List (List ℕ × Bytes)) (written : List WrittenChunk) : List ChunkInfo :=
  zipWith (fun chunk record => record.info chunk.1) chunks written

/-- The grid numbers the chunks as they were cut. -/
theorem CutInto.gridInfos_eq (h : CutInto rawData shape chunkDims elementSize chunks)
    (hlen : chunks.length = written.length) :
    gridInfos (chunkCounts shape chunkDims) chunkDims written = chunkInfos chunks written := by
  have hcount : written.length = (chunkCounts shape chunkDims).prod := by
    rw [← hlen, h.chunks_eq, length_map, length_range]
  have hcounts : (chunkCounts shape chunkDims).length = chunkDims.length := by
    simp [h.length_chunkDims]
  refine ext_getElem? fun i => ?_
  rw [gridInfos, getElem?_mapIdx, chunkInfos, getElem?_zipWith, h.chunks_eq, getElem?_map]
  rcases lt_or_ge i written.length with hi | hi
  · rw [getElem?_range (hcount ▸ hi), getElem?_eq_getElem hi]
    simp [indexToChunkOffsets_eq hcounts (hcount ▸ hi)]
  · rw [getElem?_eq_none hi]
    cases Option.map _ (range _)[i]? <;> rfl

theorem CutInto.offsets_of_single (h : CutInto rawData shape chunkDims elementSize [chunk]) :
    chunk.1 = replicate chunkDims.length 0 := by
  have hdims := h.length_chunkDims
  have hsplit := h.chunks_eq
  have hcount : (chunkCounts shape chunkDims).prod = 1 := by
    simpa using (congrArg length hsplit).symm
  rw [hcount] at hsplit
  obtain rfl := (cons.inj hsplit).1
  dsimp only
  rw [unflatten_zero, gridOffsets, length_chunkCounts, hdims, min_self]
  refine ext_getElem? fun i => ?_
  rw [getElem?_zipWith, getElem?_replicate, ← hdims]
  rcases lt_or_ge i chunkDims.length with hi | hi
  · rw [if_pos hi, getElem?_eq_getElem hi]
    simp
  · rw [if_neg (not_lt.mpr hi)]

/-! ### The read -/

theorem mapM_chunkData_eq {total : ℕ} (hfile : file.length < 2 ^ 63)
    (hblob : StandsAt file baseAddress blob)
    (hstored : Forall₂ (Stored codecs pipeline elementSize baseAddress blob) chunks written)
    (hchunks : ∀ chunk ∈ chunks, chunk.2.length = total ∧
      Recoverable codecs decompressChunk pipeline elementSize chunk.2) :
    (chunkInfos chunks written).mapM (chunkData decompressChunk file pipeline total elementSize) =
      .ok (chunks.map (·.2)) := by
  rw [mapM_eq_ok]
  induction hstored with
  | nil => exact .nil
  | cons hrecord _ ih =>
    obtain ⟨⟨hlen, hchunk⟩, hchunks⟩ := forall_mem_cons.mp hchunks
    exact .cons (hlen ▸ chunkData_eq hfile hblob hrecord hchunk) (ih hchunks)

theorem foldl_chunkInfos (hlen : chunks.length = written.length) (output : Bytes) :
    ((chunkInfos chunks written).zip (chunks.map (·.2))).foldl (fun output (chunk, data) =>
        placeChunk data output chunk.offsets chunkDims shape elementSize) output =
      chunks.foldl (fun output chunk =>
        placeChunk chunk.2 output chunk.1 chunkDims shape elementSize) output := by
  induction chunks generalizing written output with
  | nil => rfl
  | cons chunk chunks ih =>
    match written, hlen with
    | record :: written, hlen => exact ih (succ_injective hlen) _

/-- A dataset whose index lists the chunks that were stored is read back. -/
theorem CutInto.readChunkedData_eq (h : CutInto rawData shape chunkDims elementSize chunks)
    (hfile : file.length < 2 ^ 63) (hblob : StandsAt file baseAddress blob)
    (hstored : Forall₂ (Stored codecs pipeline elementSize baseAddress blob) chunks written)
    (hchunks : ∀ chunk ∈ chunks, Recoverable codecs decompressChunk pipeline elementSize chunk.2)
    {layout : ChunkedLayout} {addr : ℕ} (haddr : layout.btreeAddress = some addr)
    (hlayout : layout.chunkDimensions = chunkDims ++ [elementSize])
    (hlist : listChunks file ⟨layout, addr, shape, chunkDims⟩ elementSize 8 8 =
      .ok (chunkInfos chunks written)) :
    readChunkedData decompressChunk file (.chunked layout) ⟨.simple, shape⟩ elementSize pipeline
      8 8 = .ok rawData := by
  have hresolve : resolveChunked (.chunked layout) ⟨.simple, shape⟩ =
      .ok ⟨layout, addr, shape, chunkDims⟩ := by
    simp only [resolveChunked, haddr, okOr, hlayout, length_append, length_singleton,
      Nat.add_sub_cancel, ok_bind, take_left]
    rw [reject_bind (succ_ne_zero _), reject_bind (not_not.mpr h.length_chunkDims.symm)]
  have hdata := mapM_chunkData_eq hfile hblob hstored fun chunk hmem =>
    ⟨(h.isChunk chunk hmem).length_bytes, hchunks chunk hmem⟩
  rw [readChunkedData, hresolve, ok_bind]
  dsimp only
  rw [hlist, ok_bind, hdata, ok_bind, foldl_chunkInfos hstored.length_eq]
  simp only [Dataspace.numElements, if_neg h.shape_ne_nil]
  rw [h.foldl_placeChunk]

theorem CutInto.listChunks_fixedArray (h : CutInto rawData shape chunkDims elementSize chunks)
    {hasFilters : Bool} {addr : ℕ} (hfile : file.length < 2 ^ 63)
    (hlen : chunks.length = written.length)
    (hfits : ∀ record ∈ written, record.Fits hasFilters (chunkSizeBytes written hasFilters)
      (chunkDims.prod * elementSize))
    (harray : StandsAt file addr (buildFixedArrayAt written 8 8 hasFilters addr)) :
    listChunks file ⟨⟨chunkDims ++ [elementSize], some addr, 4, some 3, none, none⟩, addr, shape,
      chunkDims⟩ elementSize 8 8 = .ok (chunkInfos chunks written) := by
  let a : StoredFixedArray := ⟨file, addr, written, hasFilters, shape, chunkDims, elementSize,
    by omega, h.chunkDims_ne_zero, h.length_chunkDims.symm, hfits, harray⟩
  have hparse : FixedArrayHeader.parse file addr 8 8 = .ok a.header := a.parse_eq
  simp only [listChunks]
  rw [hparse, ok_bind, ← h.gridInfos_eq hlen]
  exact a.read_eq

/-- A single chunk is listed from the layout alone. -/
theorem CutInto.singleChunk_eq (h : CutInto rawData shape chunkDims elementSize [chunk])
    (hstored : Stored codecs pipeline elementSize baseAddress blob chunk record)
    (hchunk : Recoverable codecs decompressChunk pipeline elementSize chunk.2) :
    singleChunk ⟨⟨chunkDims ++ [elementSize], some record.address, 4, some 1,
        if pipeline.isSome then some record.compressedSize else none,
        if pipeline.isSome then some 0 else none⟩, record.address, shape, chunkDims⟩ elementSize =
      record.info chunk.1 := by
  obtain ⟨out, hout, hlaid⟩ := hstored
  have hoffsets := h.offsets_of_single
  have hlen := (h.isChunk chunk (mem_singleton_self chunk)).length_bytes
  have hsize : record.compressedSize = out.length := hlaid.compressedSize_eq
  have hlt := hchunk.stored_lt out hout
  cases pipeline with
  | none =>
    obtain rfl := Except.ok.inj hout
    simp only [singleChunk, Option.isSome_none, Bool.false_eq_true, if_false, info,
      ← hlen, mod_eq_of_lt hlt, hsize, hlaid.filterMask_eq, hoffsets]
  | some pl =>
    simp only [singleChunk, Option.isSome_some, if_true, info, hsize,
      mod_eq_of_lt hlt, hlaid.filterMask_eq, hoffsets, Option.getD_some]

end

/-! ### The round trip -/

/-- The pipeline in a dataset's message, if it has one. -/
def parsePipeline : Option Bytes → Run (Option FilterPipeline)
  | some message => some <$> FilterPipeline.parse message
  | none => .ok none

/-- Parse the messages of a written dataset and read it from a file. -/
def readBuilt (decompressChunk : Bytes → FilterPipeline → ℕ → ℕ → Run Bytes) (file : Bytes)
    (result : ChunkedDataResult) (shape : List ℕ) (elementSize : ℕ) : Run Bytes := do
  let layout ← DataLayout.parse result.layoutMessage 8 8
  let pipeline ← parsePipeline result.pipelineMessage
  readChunkedData decompressChunk file layout ⟨.simple, shape⟩ elementSize pipeline 8 8

/-- The data and options of a chunked dataset without unlimited dimensions. -/
structure ChunkedInput (rawData : Bytes) (shape chunkDims : List ℕ) (elementSize : ℕ)
    (options : ChunkOptions) (maxshape : Option (List ℕ)) : Prop where
  rank_pos : 1 ≤ shape.length
  rank_le : shape.length ≤ 254
  length_chunkDims : chunkDims.length = shape.length
  chunkDims_range : ∀ n ∈ chunkDims, 1 ≤ n ∧ n < 2 ^ 32
  elementSize_pos : 1 ≤ elementSize
  elementSize_lt : elementSize < 2 ^ 32
  length_rawData : rawData.length = elementSize * shape.prod
  options_typed : options.Typed
  maxshape_fixed : ∀ dims ∈ maxshape, 2 ^ 64 - 1 ∉ dims

section

variable {codecs : Codecs} {decompressChunk : Bytes → FilterPipeline → ℕ → ℕ → Run Bytes}
  {elementSize baseAddress : ℕ} {file blob rawData : Bytes} {shape chunkDims : List ℕ}
  {options : ChunkOptions} {maxshape : Option (List ℕ)} {chunks : List (List ℕ × Bytes)}
  {written : List WrittenChunk}

/-- The message of a single chunk is read back, with filters or without. -/
theorem parse_singleChunk {filtered : Bool} {address size : ℕ} (hrank : chunkDims.length < 255)
    (hdims : ∀ dim ∈ chunkDims ++ [elementSize], dim < 2 ^ 32) (haddress : address < 2 ^ 64 - 1)
    (hsize : size < 256 ^ 8) :
    DataLayout.parse (serializeV4SingleChunk chunkDims address
      (if filtered then some size else none) (if filtered then some 0 else none) .eight elementSize)
      8 8 = .ok (.chunked ⟨chunkDims ++ [elementSize], some address, 4, some 1,
        if filtered then some size else none, if filtered then some 0 else none⟩) := by
  cases filtered with
  | false => exact parse_serializeV4SingleChunk hrank hdims haddress
  | true => exact parse_serializeV4SingleChunk_filtered hrank hdims haddress hsize (by decide)

section

variable (hinput : ChunkedInput rawData shape chunkDims elementSize options maxshape)
include hinput

/-- The pipeline message is read back. -/
theorem parsePipeline_eq :
    parsePipeline ((options.buildPipeline elementSize).map (·.serialize)) =
      .ok (options.buildPipeline elementSize) := by
  cases hpipeline : options.buildPipeline elementSize with
  | none => rfl
  | some pl =>
    have hpl := buildPipeline_canonical hinput.options_typed hinput.elementSize_lt hpipeline
    simp only [Option.map_some, parsePipeline, FilterPipeline.parse_serialize hpl]
    rfl

/-- Every record fits its element of the index. -/
theorem fits_of_forall_stored (hcodecs : codecs.Moderate)
    (hfile : file.length < 2 ^ 63) (hblob : StandsAt file baseAddress blob)
    (hlengths : ∀ chunk ∈ chunks, chunk.2.length = chunkDims.prod * elementSize)
    (hstored : Forall₂ (Stored codecs (options.buildPipeline elementSize) elementSize
      baseAddress blob) chunks written)
    (hchunks : ∀ chunk ∈ chunks, Recoverable codecs decompressChunk
      (options.buildPipeline elementSize) elementSize chunk.2) :
    let hasFilters := (options.buildPipeline elementSize).isSome
    ∀ record ∈ written, record.Fits hasFilters (chunkSizeBytes written hasFilters)
      (chunkDims.prod * elementSize) := by
  intro hasFilters record hrecord
  obtain ⟨chunk, hchunk, hstore⟩ := exists_of_mem_right hstored hrecord
  rw [← hlengths chunk hchunk]
  refine fits_of_stored hfile hblob hstore (hchunks chunk hchunk) fun hsome => ?_
  obtain ⟨pl, hpl⟩ := Option.isSome_iff_exists.mp hsome
  obtain ⟨out, hout, hsize, -⟩ := hstore.standsAt hblob
  have hraw (other : WrittenChunk) (hother : other ∈ written) :
      other.rawSize = chunkDims.prod * elementSize := by
    obtain ⟨source, hsource, hstore⟩ := exists_of_mem_right hstored hother
    obtain ⟨-, -, -, hraw, -⟩ := hstore.standsAt hblob
    exact hraw.trans (hlengths source hsource)
  have hcompress : compressChunk codecs chunk.2 pl elementSize = .ok out := by
    rwa [hpl] at hout
  have hle := length_compressChunk_le hcodecs hinput.options_typed hinput.elementSize_lt hpl
    hcompress
  have hlt := (hchunks chunk hchunk).stored_lt out hout
  rw [hlengths chunk hchunk] at hle
  rw [hsize, show hasFilters = true from hsome]
  exact lt_of_chunkSizeBytes (ne_nil_of_mem hrecord) hraw hle (by omega)

theorem ChunkedInput.map_mod : chunkDims.map (· % 2 ^ 32) = chunkDims := by
  have h := map_congr_left (g := id) fun n hn =>
    mod_eq_of_lt (hinput.chunkDims_range n hn).2
  rwa [map_id] at h

/-- What a blob contains: the chunks and, unless there is only one, a fixed array behind them. -/
theorem exists_of_build {cacheLineSize : ℕ} {result : ChunkedDataResult}
    (hbuild : buildChunkedDataAtExt cacheLineSize codecs rawData shape chunkDims elementSize
      options baseAddress maxshape = .ok result) :
    let pipeline := options.buildPipeline elementSize
    ∃ chunks written, splitIntoChunks rawData shape chunkDims elementSize = .ok chunks ∧
      Forall₂ (Stored codecs pipeline elementSize baseAddress result.dataBytes) chunks
        written ∧
      result.pipelineMessage = pipeline.map (·.serialize) ∧
      ((∃ record, written = [record] ∧ result.layoutMessage =
        serializeV4SingleChunk chunkDims record.address
          (if pipeline.isSome then some record.compressedSize else none)
          (if pipeline.isSome then some 0 else none) .eight elementSize) ∨
      ∃ pos, StandsAt result.dataBytes pos
          (buildFixedArrayAt written 8 8 pipeline.isSome (baseAddress + pos)) ∧
        result.layoutMessage = serializeV4FixedArray chunkDims (baseAddress + pos) .eight
          elementSize fixedArrayMaxBits) := by
  intro pipeline
  have hfixed : ¬ maxshape.any (·.contains (2 ^ 64 - 1)) := by
    cases maxshape with
    | none => simp
    | some dims => simpa using hinput.maxshape_fixed dims rfl
  simp only [buildChunkedDataAtExt, precompressChunks, bind_ok_iff, Except.ok.injEq,
    mod_eq_of_lt hinput.elementSize_lt] at hbuild
  obtain ⟨pre, ⟨chunks, hsplit, outs, houts, rfl⟩, hresult⟩ := hbuild
  have hstored (rest : Bytes) := @forall_stored codecs pipeline elementSize baseAddress
    cacheLineSize chunks outs houts rest
  simp only [buildChunkedDataFromPrecompressed, hinput.map_mod,
    mod_eq_of_lt hinput.elementSize_lt, if_neg hfixed] at hresult
  generalize layOutChunks cacheLineSize baseAddress _ [] = laid at hstored hresult
  obtain ⟨bytes, written⟩ := laid
  refine ⟨chunks, written, hsplit, ?_⟩
  dsimp only at hstored hresult
  split at hresult
  next record =>
    subst hresult
    exact ⟨hstored _, rfl, .inl ⟨record, rfl, rfl⟩⟩
  next =>
    subst hresult
    refine ⟨?_, rfl, .inr ⟨(padToCacheLine cacheLineSize bytes).length, ?_, rfl⟩⟩
    · simpa [padToCacheLine] using hstored _
    · simpa using (standsAt_append.mp (standsAt_self (padToCacheLine cacheLineSize bytes ++ _))).2

end

/-- A dataset that was built is read back as it was. -/
theorem readBuilt_eq (codecs : Codecs)
    (decompressChunk : Bytes → FilterPipeline → ℕ → ℕ → Run Bytes) (cacheLineSize : ℕ)
    {result : ChunkedDataResult} (hcodecs : codecs.Moderate)
    (hinput : ChunkedInput rawData shape chunkDims elementSize options maxshape)
    (hchunks : ∀ chunks, splitIntoChunks rawData shape chunkDims elementSize = .ok chunks →
      ∀ chunk ∈ chunks, Recoverable codecs decompressChunk (options.buildPipeline elementSize)
        elementSize chunk.2)
    (hbuild : buildChunkedDataAtExt cacheLineSize codecs rawData shape chunkDims elementSize
      options baseAddress maxshape = .ok result)
    (hfile : file.length < 2 ^ 63) (hstands : StandsAt file baseAddress result.dataBytes) :
    readBuilt decompressChunk file result shape elementSize = .ok rawData := by
  have hwords : ∀ dim ∈ chunkDims ++ [elementSize], dim < 2 ^ 32 := by
    rw [forall_mem_append, forall_mem_singleton]
    exact ⟨fun n hn => (hinput.chunkDims_range n hn).2, hinput.elementSize_lt⟩
  have hranklt : chunkDims.length < 255 := by
    have := hinput.rank_le
    rw [hinput.length_chunkDims]
    omega
  obtain ⟨chunks, written, hsplit, hstored, hmessage, hindex⟩ := exists_of_build hinput hbuild
  have hcut : CutInto rawData shape chunkDims elementSize chunks :=
    ⟨hinput.length_rawData.trans (mul_comm _ _), length_pos_iff.mp hinput.rank_pos,
      hinput.length_chunkDims,
      fun n hn => one_le_iff_ne_zero.mp (hinput.chunkDims_range n hn).1, hsplit⟩
  have hread := @CutInto.readChunkedData_eq codecs decompressChunk _ _ _ _ _ _ _ _ _ _ hcut hfile
    hstands hstored (hchunks chunks hsplit)
  rw [readBuilt, hmessage, parsePipeline_eq hinput]
  rcases hindex with ⟨record, rfl, hlayout⟩ | ⟨pos, harray, hlayout⟩
  · obtain ⟨chunk, rest, hrecord, hrest, rfl⟩ := forall₂_cons_right_iff.mp hstored
    obtain rfl := forall₂_nil_right_iff.mp hrest
    obtain ⟨out, -, hsize, -, -, hout⟩ := hrecord.standsAt hstands
    have hle := hout.le
    rw [hlayout, parse_singleChunk hranklt hwords (by omega) (by omega)]
    refine hread rfl rfl (congrArg (fun info => Except.ok [info]) ?_)
    exact hcut.singleChunk_eq hrecord (hchunks _ hsplit chunk (mem_singleton_self chunk))
  · have harray := hstands.trans harray
    have hle := harray.le
    rw [hlayout, parse_serializeV4FixedArray hranklt hwords (by omega)]
    exact hread rfl rfl (hcut.listChunks_fixedArray hfile hstored.length_eq
      (fits_of_forall_stored hinput hcodecs hfile hstands
        (fun chunk hmem => (hcut.isChunk chunk hmem).length_bytes) hstored
        (hchunks chunks hsplit)) harray)

/-- Compressors that store their input. -/
def storingCodecs : Codecs := ⟨fun _ data => .ok data, id, fun _ data => .ok data,
  fun _ data => .ok data⟩

theorem storingCodecs_moderate : storingCodecs.Moderate := by
  have hle (data : Bytes) : data.length ≤ codecBound data.length := by
    rw [codecBound]
    omega
  exact ⟨fun h => Except.ok.inj h ▸ hle _, hle, fun h => Except.ok.inj h ▸ hle _,
    fun h => Except.ok.inj h ▸ hle _⟩

/-- Three bytes in two chunks, each with a checksum. -/
theorem readBuilt_threeBytes :
    ∃ result, buildChunkedDataAtExt 64 storingCodecs [1, 2, 3] [3] [2] 1
        { fletcher32 := true } 0 none = .ok result ∧
      readBuilt (fun data _ _ _ => fletcher32Verify data) result.dataBytes result [3] 1 =
        .ok [1, 2, 3] := by
  have hbuild : buildChunkedDataAtExt 64 storingCodecs [1, 2, 3] [3] [2] 1
    { fletcher32 := true } 0 none = .ok _ := rfl
  have hinput : ChunkedInput [1, 2, 3] [3] [2] 1 { fletcher32 := true } none :=
    ⟨by decide, by decide, rfl, by decide, by decide, by decide, rfl, ⟨by simp, by simp⟩, by simp⟩
  refine ⟨_, hbuild, readBuilt_eq storingCodecs _ 64 storingCodecs_moderate hinput ?_ hbuild ?_
    (standsAt_self _)⟩
  · intro chunks hchunks chunk hmem
    have hcut : CutInto [1, 2, 3] [3] [2] 1 chunks :=
      ⟨rfl, cons_ne_nil 3 [], rfl, by simp, hchunks⟩
    have hlen : chunk.2.length = 2 := (hcut.isChunk chunk hmem).length_bytes
    refine ⟨by omega, fun out hout => ?_, ?_⟩
    · rw [← Except.ok.inj hout, length_fletcher32Append]
      omega
    · rintro pl ⟨rfl⟩ out hout
      rw [← Except.ok.inj hout]
      exact fletcher32Verify_append chunk.2
  · decide +kernel

end

end ClawHdf5.Format
