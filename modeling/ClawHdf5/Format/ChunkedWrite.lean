import ClawHdf5.Format.DataLayout
import ClawHdf5.Format.EaWriter
import ClawHdf5.Format.Filters

/-!
# Writing chunked datasets

A dataset is cut into chunks of equal shape, those at the edge filled up with zeros. Each chunk
passes through the filters, and the results are laid out one behind another, each at a cache line
of the blob. Behind them stands the index: an extensible array when a dimension is unlimited,
nothing for a single chunk, and else a fixed array. The size of a cache line depends on the
machine and is a parameter.
-/

namespace ClawHdf5.Format

open Bytes Fallible RowMajor List Except

/-! ### Options -/

structure ChunkOptions where
  chunkDims : Option (List ℕ) := none
  deflateLevel : Option ℕ := none
  shuffle : Bool := false
  noShuffle : Bool := false
  fletcher32 : Bool := false
  lz4 : Bool := false
  zstdLevel : Option ℕ := none
  pcodec : Bool := false
  deriving DecidableEq

namespace ChunkOptions

/-- Some compressor is asked for. -/
def hasCompression (options : ChunkOptions) : Bool :=
  options.deflateLevel.isSome || options.zstdLevel.isSome || options.lz4 || options.pcodec

/-- The compressor: the first of those asked for. -/
def compressor (options : ChunkOptions) (elementSize : ℕ) : List FilterDescription :=
  if options.pcodec then [⟨filterPcodec, some "pcodec", 0, [elementSize]⟩]
  else match options.zstdLevel with
  | some level => [⟨filterZstd, some "zstd", 0, [level]⟩]
  | none =>
    if options.lz4 then [⟨filterLz4, some "lz4", 0, []⟩]
    else match options.deflateLevel with
    | some level => [⟨filterDeflate, none, 0, [level]⟩]
    | none => []

/-- The filters of a dataset. Bytes are shuffled before compression unless that is disabled. -/
def buildPipeline (options : ChunkOptions) (elementSize : ℕ) : Option FilterPipeline :=
  let shuffle := if options.shuffle || (options.hasCompression && !options.noShuffle) then
    [⟨filterShuffle, none, 0, [elementSize]⟩] else []
  let checksum := if options.fletcher32 then [⟨filterFletcher32, none, 0, []⟩] else []
  let filters := shuffle ++ options.compressor elementSize ++ checksum
  if filters = [] then none else some ⟨2, filters⟩

end ChunkOptions

/-! ### Chunks -/

/-- Where element `remaining` of a chunk lies in the dataset, if it does. A coordinate outside the
dataset ends the loop. -/
def elementPosition : (offsets shape chunkStrides dsStrides : List ℕ) →
    (remaining dsFlat : ℕ) → Option ℕ
  | offset :: offsets, dim :: shape, chunkStride :: chunkStrides, dsStride :: dsStrides,
      remaining, dsFlat =>
    let globalCoord := offset + remaining / chunkStride
    if dim ≤ globalCoord then none
    else elementPosition offsets shape chunkStrides dsStrides (remaining % chunkStride)
      (dsFlat + globalCoord * dsStride)
  | _, _, _, _, _, dsFlat => some dsFlat

def chunkElement (rawData : Bytes) (shape chunkDims offsets : List ℕ) (elementSize k : ℕ) : Bytes :=
  match elementPosition offsets shape (strides chunkDims) (strides shape) k 0 with
  | some dsFlat =>
    if dsFlat * elementSize + elementSize ≤ rawData.length then
      (rawData.drop (dsFlat * elementSize)).take elementSize
    else replicate elementSize 0
  | none => replicate elementSize 0

/-- Cut a dataset into chunks: the offsets of each and its bytes. The number of elements of a chunk
is the product of all chunk dimensions, those beyond the rank included. -/
def splitIntoChunks (rawData : Bytes) (shape chunkDims : List ℕ) (elementSize : ℕ) :
    Run (List (List ℕ × Bytes)) :=
  let rank := shape.length
  if rank = 0 then .ok [([], rawData)]
  else if chunkDims.length < rank ∨ 0 ∈ chunkDims.take rank then .error .panic
  else
    let counts := chunkCounts shape chunkDims
    .ok ((range counts.prod).map fun linearIdx =>
      let offsets := gridOffsets (digits counts linearIdx).1 chunkDims
      (offsets, (range chunkDims.prod).flatMap
        (chunkElement rawData shape (chunkDims.take rank) offsets elementSize)))

/-- Compressed chunks, with what the layout of the blob needs. -/
structure PrecompressedChunks where
  chunks : List (ℕ × Bytes)
  hasFilters : Bool
  elementSize : ℕ
  chunkDims : List ℕ
  pipelineMessage : Option Bytes
  deriving DecidableEq

section

variable (codecs : Codecs)

def storeChunk (pipeline : Option FilterPipeline) (elementSize : ℕ) (bytes : Bytes) : Run Bytes :=
  match pipeline with
  | some pl => compressChunk codecs bytes pl elementSize
  | none => .ok bytes

def compressAllChunks (chunks : List (List ℕ × Bytes)) (pipeline : Option FilterPipeline)
    (elementSize : ℕ) : Run (List Bytes) :=
  chunks.mapM fun chunk => storeChunk codecs pipeline elementSize chunk.2

def precompressChunks (rawData : Bytes) (shape chunkDims : List ℕ) (elementSize : ℕ)
    (options : ChunkOptions) : Run PrecompressedChunks := do
  let pipeline := options.buildPipeline (elementSize % 2 ^ 32)
  let rawChunks ← splitIntoChunks rawData shape chunkDims elementSize
  let compressed ← compressAllChunks codecs rawChunks pipeline (elementSize % 2 ^ 32)
  .ok {
    chunks := zipWith (fun raw bytes => (raw.2.length, bytes)) rawChunks compressed
    hasFilters := pipeline.isSome
    elementSize, chunkDims
    pipelineMessage := pipeline.map (·.serialize) }

end

/-! ### The blob -/

structure ChunkedDataResult where
  dataBytes : Bytes
  layoutMessage : Bytes
  pipelineMessage : Option Bytes
  deriving DecidableEq

section

variable (cacheLineSize : ℕ)

/-- `size` rounded up to a multiple of the size of a cache line. -/
def alignToCacheLine (size : ℕ) : ℕ := (size + cacheLineSize - 1) / cacheLineSize * cacheLineSize

/-- Fill a buffer with zeros up to the next cache line. -/
def padToCacheLine (buf : Bytes) : Bytes :=
  buf ++ replicate (alignToCacheLine cacheLineSize buf.length - buf.length) 0

/-- Append chunks to a buffer that will stand at `baseAddress`, and record each. -/
def layOutChunks (baseAddress : ℕ) : List (ℕ × Bytes) → Bytes → Bytes × List WrittenChunk
  | [], dataBuf => (dataBuf, [])
  | (rawSize, compressed) :: chunks, dataBuf =>
    let padded := padToCacheLine cacheLineSize dataBuf
    let (result, written) := layOutChunks baseAddress chunks (padded ++ compressed)
    (result, ⟨baseAddress + padded.length, compressed.length, rawSize, 0⟩ :: written)

/-- Lay compressed chunks out at `baseAddress`, and build their index. -/
def buildChunkedDataFromPrecompressed (pre : PrecompressedChunks) (baseAddress : ℕ)
    (maxshape : Option (List ℕ)) : ChunkedDataResult :=
  let (chunkBytes, written) := layOutChunks cacheLineSize baseAddress pre.chunks []
  let chunkDims := pre.chunkDims.map (· % 2 ^ 32)
  let elementSize := pre.elementSize % 2 ^ 32
  let dataBuf := padToCacheLine cacheLineSize chunkBytes
  let indexAddress := baseAddress + dataBuf.length
  if maxshape.any (·.contains (2 ^ 64 - 1)) then
    { dataBytes := dataBuf ++ buildExtensibleArrayAt written 8 8 pre.hasFilters indexAddress
      layoutMessage := serializeV4ExtensibleArray chunkDims indexAddress .eight elementSize
      pipelineMessage := pre.pipelineMessage }
  else match written with
  | [chunk] =>
    let filteredSize := if pre.hasFilters then some chunk.compressedSize else none
    let filterMask := if pre.hasFilters then some 0 else none
    { dataBytes := dataBuf
      layoutMessage := serializeV4SingleChunk chunkDims chunk.address filteredSize filterMask .eight
        elementSize
      pipelineMessage := pre.pipelineMessage }
  | _ =>
    { dataBytes := dataBuf ++ buildFixedArrayAt written 8 8 pre.hasFilters indexAddress
      layoutMessage := serializeV4FixedArray chunkDims indexAddress .eight elementSize
        fixedArrayMaxBits
      pipelineMessage := pre.pipelineMessage }

/-- Build a chunked dataset that will stand at `baseAddress`. -/
def buildChunkedDataAtExt (codecs : Codecs) (rawData : Bytes) (shape chunkDims : List ℕ)
    (elementSize : ℕ) (options : ChunkOptions) (baseAddress : ℕ) (maxshape : Option (List ℕ)) :
    Run ChunkedDataResult := do
  let pre ← precompressChunks codecs rawData shape chunkDims elementSize options
  .ok (buildChunkedDataFromPrecompressed cacheLineSize pre baseAddress maxshape)

end

/-! ### Pipelines of a dataset -/

section

variable {options : ChunkOptions} {elementSize : ℕ} {pipeline : FilterPipeline}

/-- The levels are words of their type. -/
structure ChunkOptions.Typed (options : ChunkOptions) : Prop where
  deflateLevel_lt : ∀ level ∈ options.deflateLevel, level < 2 ^ 32
  zstdLevel_lt : ∀ level ∈ options.zstdLevel, level < 2 ^ 32

/-- A filter in the reserved range, with words as client data. -/
theorem canonical_of_lt {filterId : ℕ} {clientData : List ℕ} (hid : filterId < 256)
    (hlen : clientData.length ≤ 1) (hclient : ∀ value ∈ clientData, value < 2 ^ 32) :
    (FilterDescription.mk filterId none 0 clientData).Canonical where
  filterId_lt := hid.trans (by decide)
  flags_lt := show 0 < 256 ^ 2 by decide
  length_lt := hlen.trans_lt (by decide)
  clientData_lt := hclient
  name_none _ := rfl
  name_some hge := absurd hid (not_lt.mpr hge)

theorem canonical_of_name {filterId : ℕ} {name : String} {clientData : List ℕ}
    (hid : 256 ≤ filterId) (hlt : filterId < 256 ^ 2) (hlen : clientData.length ≤ 1)
    (hclient : ∀ value ∈ clientData, value < 2 ^ 32) (hzero : 0 ∉ utf8Bytes name)
    (hname : (nameBytes name).length < 256 ^ 2) :
    (FilterDescription.mk filterId (some name) 0 clientData).Canonical where
  filterId_lt := hlt
  flags_lt := show 0 < 256 ^ 2 by decide
  length_lt := hlen.trans_lt (by decide)
  clientData_lt := hclient
  name_none hlt := absurd hlt (not_lt.mpr hid)
  name_some _ := ⟨name, rfl, hzero, hname⟩

/-- There is at most one compressor, and its description can be stored. -/
theorem compressor_cases (hoptions : options.Typed) (helem : elementSize < 2 ^ 32) :
    options.compressor elementSize = [] ∨
      ∃ f, options.compressor elementSize = [f] ∧ f.Canonical := by
  rw [ChunkOptions.compressor]
  split
  · exact .inr ⟨_, rfl, canonical_of_name (by decide) (by decide) le_rfl (by simpa) (by decide)
      (by decide)⟩
  split
  next level hlevel =>
    exact .inr ⟨_, rfl, canonical_of_name (by decide) (by decide) le_rfl
      (by simpa using hoptions.zstdLevel_lt level hlevel) (by decide) (by decide)⟩
  split
  · exact .inr ⟨_, rfl, canonical_of_name (by decide) (by decide) (Nat.zero_le 1) (by simp)
      (by decide) (by decide)⟩
  split
  next level hlevel =>
    exact .inr ⟨_, rfl, canonical_of_lt (by decide) le_rfl
      (by simpa using hoptions.deflateLevel_lt level hlevel)⟩
  · exact .inl rfl

/-- A filter that does not compress. -/
def PlainFilter (f : FilterDescription) : Prop :=
  f.Canonical ∧ (f.filterId = filterShuffle ∨ f.filterId = filterFletcher32)

/-- A pipeline is a compressor between filters that do not compress. -/
theorem buildPipeline_eq_some (helem : elementSize < 2 ^ 32)
    (h : options.buildPipeline elementSize = some pipeline) :
    ∃ before after, pipeline = ⟨2, before ++ options.compressor elementSize ++ after⟩ ∧
      before.length ≤ 1 ∧ after.length ≤ 1 ∧ (∀ f ∈ before, PlainFilter f) ∧
      ∀ f ∈ after, PlainFilter f := by
  have hshuffle : PlainFilter ⟨filterShuffle, none, 0, [elementSize]⟩ :=
    ⟨canonical_of_lt (by decide) le_rfl (by simpa), .inl rfl⟩
  have hfletcher : PlainFilter ⟨filterFletcher32, none, 0, []⟩ :=
    ⟨canonical_of_lt (by decide) (Nat.zero_le 1) (by simp), .inr rfl⟩
  have hcond {c : Prop} [Decidable c] {f : FilterDescription} (hf : PlainFilter f) :
      (if c then [f] else []).length ≤ 1 ∧ ∀ g ∈ (if c then [f] else []), PlainFilter g := by
    split_ifs <;> simp [hf]
  rw [ChunkOptions.buildPipeline, Option.ite_none_left_eq_some] at h
  exact ⟨_, _, (Option.some.inj h.2).symm, (hcond hshuffle).1, (hcond hfletcher).1,
    (hcond hshuffle).2, (hcond hfletcher).2⟩

/-- The message of a dataset's pipeline determines it. -/
theorem buildPipeline_canonical (hoptions : options.Typed) (helem : elementSize < 2 ^ 32)
    (h : options.buildPipeline elementSize = some pipeline) : pipeline.Canonical := by
  obtain ⟨before, after, rfl, hbefore, hafter, hplain, hplain'⟩ := buildPipeline_eq_some helem h
  have hcompressor : (options.compressor elementSize).length ≤ 1 ∧
      ∀ f ∈ options.compressor elementSize, f.Canonical := by
    obtain heq | ⟨f, heq, hf⟩ := compressor_cases hoptions helem <;> simp [*]
  refine ⟨rfl, ?_, fun f hf => ?_⟩
  · simp only [length_append]
    omega
  · simp only [mem_append] at hf
    rcases hf with (hf | hf) | hf
    · exact (hplain f hf).1
    · exact hcompressor.2 f hf
    · exact (hplain' f hf).1

variable {codecs : Codecs} {data result : Bytes}

/-- Filters that do not compress add at most a checksum each. -/
theorem length_foldlM_plain {filters : List FilterDescription}
    (hplain : ∀ f ∈ filters, PlainFilter f)
    (h : filters.foldlM (compressFilter codecs elementSize) data = .ok result) :
    result.length ≤ data.length + 4 * filters.length := by
  induction filters generalizing data with
  | nil =>
    obtain rfl := ok.inj h
    exact le_refl _
  | cons f filters ih =>
    obtain ⟨hf, hfilters⟩ := forall_mem_cons.mp hplain
    rw [foldlM_cons, bind_ok_iff] at h
    obtain ⟨next, hnext, hrest⟩ := h
    have hle := ih hfilters hrest
    have hstep := length_compressFilter_le_add hf.2 hnext
    rw [length_cons]
    omega

/-- How large a stored chunk is at most. -/
theorem length_compressChunk_le (hcodecs : codecs.Moderate) (hoptions : options.Typed)
    (helem : elementSize < 2 ^ 32) (hpipeline : options.buildPipeline elementSize = some pipeline)
    (h : compressChunk codecs data pipeline elementSize = .ok result) :
    result.length ≤ 128 * data.length + 32767 := by
  obtain ⟨before, after, rfl, hbefore, hafter, hplain, hplain'⟩ :=
    buildPipeline_eq_some helem hpipeline
  simp only [compressChunk, foldlM_append, bind_ok_iff] at h
  obtain ⟨packed, ⟨shuffled, hshuffled, hpacked⟩, hresult⟩ := h
  have hfirst := length_foldlM_plain hplain hshuffled
  have hlast := length_foldlM_plain hplain' hresult
  obtain heq | ⟨f, heq, -⟩ := compressor_cases hoptions helem
  · rw [heq] at hpacked
    obtain rfl := ok.inj hpacked
    omega
  · rw [heq, foldlM_cons, bind_ok_iff] at hpacked
    obtain ⟨next, hnext, hpacked⟩ := hpacked
    obtain rfl := ok.inj hpacked
    have hmiddle := length_compressFilter_le hcodecs hnext
    rw [codecBound] at hmiddle
    omega

end

/-! ### What the chunks contain -/

section

variable {rawData : Bytes} {shape chunkDims offsets d : List ℕ} {w : ℕ}

/-- An element of a chunk lies where its coordinates in the chunk and the chunk's offsets say. -/
theorem elementPosition_eq (hoffsets : offsets.length = shape.length)
    (hchunk : chunkDims.length = shape.length) (k dsFlat : ℕ) :
    elementPosition offsets shape (strides chunkDims) (strides shape) k dsFlat =
      if InBounds shape (shift offsets (unflatten chunkDims k)) then
        some (dsFlat + flat shape (shift offsets (unflatten chunkDims k)))
      else none := by
  induction shape generalizing offsets chunkDims k dsFlat with
  | nil =>
    obtain rfl := length_eq_zero_iff.mp hchunk
    simp [elementPosition, unflatten, shift, flat]
  | cons dim shape ih =>
    obtain ⟨offset, offsets, rfl⟩ := exists_cons_of_length_eq_add_one hoffsets
    obtain ⟨size, chunkDims, rfl⟩ := exists_cons_of_length_eq_add_one hchunk
    simp only [strides, elementPosition, unflatten, shift, zipWith_cons_cons, inBounds_cons, flat]
    rcases lt_or_ge (offset + k / chunkDims.prod) dim with hlt | hge
    · have hrest := @ih chunkDims offsets (Nat.succ_injective hoffsets)
        (Nat.succ_injective hchunk)
      simp only [shift] at hrest
      rw [hrest]
      simp [hlt, add_assoc]
    · rw [if_pos hge, if_neg fun h => absurd h.1 (not_lt.mpr hge)]

theorem length_chunkElement (k : ℕ) :
    (chunkElement rawData shape chunkDims offsets w k).length = w := by
  rw [chunkElement]
  split
  · split_ifs with hle
    · rw [length_take, length_drop]
      omega
    · exact length_replicate
  · exact length_replicate

theorem chunkElement_eq (hraw : rawData.length = shape.prod * w)
    (hoffsets : offsets.length = shape.length) (hchunk : chunkDims.length = shape.length)
    (hd : InBounds chunkDims d) (hin : InBounds shape (shift offsets d)) :
    chunkElement rawData shape chunkDims offsets w (flat chunkDims d) =
      Overwrite.cell w rawData (flat shape (shift offsets d)) := by
  have hle : flat shape (shift offsets d) * w + w ≤ rawData.length := by
    rw [hraw, ← Nat.succ_mul]
    exact Nat.mul_le_mul_right w (flat_lt hin)
  rw [chunkElement, elementPosition_eq hoffsets hchunk, unflatten_flat hd, if_pos hin]
  simp [if_pos hle, Overwrite.cell]

end

/-! ### Where the chunks stand -/

section

variable {cacheLineSize baseAddress : ℕ}

/-- A record says where a chunk stands in a blob and how large it is. -/
structure Laid (baseAddress : ℕ) (blob : Bytes) (chunk : ℕ × Bytes) (written : WrittenChunk) :
    Prop where
  compressedSize_eq : written.compressedSize = chunk.2.length
  rawSize_eq : written.rawSize = chunk.1
  filterMask_eq : written.filterMask = 0
  stands : ∃ pos, written.address = baseAddress + pos ∧ StandsAt blob pos chunk.2

theorem Laid.append {blob : Bytes} {chunk : ℕ × Bytes} {written : WrittenChunk}
    (h : Laid baseAddress blob chunk written) (rest : Bytes) :
    Laid baseAddress (blob ++ rest) chunk written := by
  obtain ⟨pos, haddress, hstands⟩ := h.stands
  have hblob := (standsAt_append.mp (standsAt_self (blob ++ rest))).1
  exact { h with stands := ⟨pos, haddress, by simpa using hblob.trans hstands⟩ }

/-- Laying chunks out appends to the buffer. -/
theorem exists_layOutChunks_eq (chunks : List (ℕ × Bytes)) (buf : Bytes) :
    ∃ rest, (layOutChunks cacheLineSize baseAddress chunks buf).1 = buf ++ rest := by
  induction chunks generalizing buf with
  | nil => exact ⟨[], (append_nil buf).symm⟩
  | cons chunk chunks ih =>
    obtain ⟨rest, hrest⟩ := ih (padToCacheLine cacheLineSize buf ++ chunk.2)
    exact ⟨_, by simpa [layOutChunks, padToCacheLine] using hrest⟩

/-- Every chunk stands in the blob where its record says. -/
theorem forall_laid (chunks : List (ℕ × Bytes)) (buf : Bytes) :
    Forall₂ (Laid baseAddress (layOutChunks cacheLineSize baseAddress chunks buf).1) chunks
      (layOutChunks cacheLineSize baseAddress chunks buf).2 := by
  induction chunks generalizing buf with
  | nil => exact .nil
  | cons chunk chunks ih =>
    refine .cons ⟨rfl, rfl, rfl, ?_⟩ (ih _)
    obtain ⟨rest, hrest⟩ := @exists_layOutChunks_eq cacheLineSize baseAddress chunks
      (padToCacheLine cacheLineSize buf ++ chunk.2)
    refine ⟨_, rfl, ?_⟩
    simp only [layOutChunks, hrest]
    exact ⟨_, _, rfl, rfl⟩

end

end ClawHdf5.Format
