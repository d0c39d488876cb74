import ClawHdf5.Format.CachedRead
import ClawHdf5.Format.Decompress
import ClawHdf5.Format.LaneRead

/-!
# Filter masks

Each chunk has a mask, a bit of which is set when the filter of that number was skipped as the chunk
was written. The paths by which chunks are decoded do not look at single bits: a chunk with an empty
mask passes through all filters, any other chunk is taken as it is stored.
-/

namespace ClawHdf5.Format

open Fallible Stateful List

/-- The number of chunks from which on they are decoded in lanes. -/
def parallelThreshold : ℕ := 4

/-- Decode all chunks: in lanes, when there are some and many chunks, or one after the other. The
lanes are given by their number and the order in which they end. -/
def decompressAllChunks (decompressChunk : Bytes → FilterPipeline → ℕ → ℕ → Run Bytes)
    (lanes : Option (ℕ × List ℕ)) (fileData : Bytes) (chunks : List ChunkInfo)
    (pipeline : Option FilterPipeline) (chunkTotalBytes elementSize : ℕ) : Run (List Bytes) :=
  match lanes, pipeline with
  | some (parallelism, order), some pl =>
    if parallelThreshold < chunks.length then do
      let first := (chunks.head?.map (·.address)).getD 0
      let seed := UInt64.ofNat first ^^^ UInt64.ofNat chunks.length
      let result ← decompressChunksLanePartitioned decompressChunk fileData chunks pl
        chunkTotalBytes elementSize seed none parallelism order
      .ok result.1
    else chunks.mapM (chunkData decompressChunk fileData pipeline chunkTotalBytes elementSize)
  | _, _ => chunks.mapM (chunkData decompressChunk fileData pipeline chunkTotalBytes elementSize)

/-! ### Chunks with a mask -/

/-- The filters whose bit in the mask is clear. -/
def appliedFilters (mask : ℕ) (filters : List FilterDescription) : List FilterDescription :=
  (filters.zipIdx.filter fun entry => !mask.testBit entry.2).map (·.1)

/-- The filters that were applied to data, in order. -/
def compressMasked (codecs : Codecs) (data : Bytes) (pipeline : FilterPipeline) (elementSize : ℕ)
    (mask : ℕ) : Run Bytes :=
  (appliedFilters mask pipeline.filters).foldlM (compressFilter codecs elementSize) data

theorem appliedFilters_zero (filters : List FilterDescription) :
    appliedFilters 0 filters = filters := by
  rw [appliedFilters, filter_eq_self.mpr (by simp), zipIdx_map_fst]

/-- A chunk in the file that was produced from raw data under its mask. -/
structure StoredMasked (codecs : Codecs) (pipeline : FilterPipeline) (elementSize : ℕ)
    (fileData : Bytes) (info : ChunkInfo) (raw : Bytes) : Prop where
  mask_lt : info.filterMask < 2 ^ 32
  stored : ∃ c, compressMasked codecs raw pipeline elementSize info.filterMask = .ok c ∧
    info.chunkSize = c.length ∧ StandsAt fileData info.address c

/-- When the data comes back: with an empty mask, if what reaches each filter fits; otherwise, if
the filters that were applied changed nothing. -/
def Undone (codecs : Codecs) (pipeline : FilterPipeline) (elementSize : ℕ) (mask : ℕ)
    (raw : Bytes) : Prop :=
  if mask = 0 then Fits codecs elementSize pipeline.filters raw
  else compressMasked codecs raw pipeline elementSize mask = .ok raw
  deriving Decidable

section

variable {codecs : Codecs} {decoders : Decoders} {pipeline : FilterPipeline}
  {fileData raw c : Bytes} {info : ChunkInfo} {elementSize total : ℕ}

section

variable {decompressChunk : Bytes → FilterPipeline → ℕ → ℕ → Run Bytes}
  (hfile : fileData.length < 2 ^ 63) (hsize : info.chunkSize = c.length)
  (hstands : StandsAt fileData info.address c)
include hfile hsize hstands

/-- A chunk is taken from where it stands in the file. -/
theorem chunkData_of_stored :
    chunkData decompressChunk fileData (some pipeline) total elementSize info =
      if info.filterMask = 0 then decompressChunk c pipeline total elementSize else .ok c := by
  have hle := hstands.le
  have hread : storedChunk fileData info = .ok c := by
    simp only [storedChunk, hsize]
    rw [reject_bind (by omega), reject_bind (by omega), slice_of_standsAt hstands]
  rw [chunkData, hread, ok_bind]

theorem laneChunk_of_stored : laneChunk decompressChunk fileData pipeline total elementSize info =
      chunkData decompressChunk fileData (some pipeline) total elementSize info := by
  have hle := hstands.le
  have hwrap : wrap (info.address + c.length) = info.address + c.length := wrap_of_lt (by omega)
  rw [chunkData_of_stored hfile hsize hstands, laneChunk, hsize]
  simp only [hwrap]
  rw [reject_bind (by omega), slice_of_standsAt hstands, ok_bind]

end

variable (hinverts : decoders.Inverts codecs) (hfile : fileData.length < 2 ^ 63)
  (h : StoredMasked codecs pipeline elementSize fileData info raw)
include hinverts hfile h

/-- The data of a chunk comes back when the filters that were applied are undone or changed
nothing. -/
theorem StoredMasked.chunkData_eq
    (hundone : Undone codecs pipeline elementSize info.filterMask raw) :
    chunkData (decompressChunk decoders) fileData (some pipeline) total elementSize info =
      .ok raw := by
  obtain ⟨c, hc, hsize, hstands⟩ := h.stored
  rw [chunkData_of_stored hfile hsize hstands]
  unfold Undone at hundone
  by_cases hmask : info.filterMask = 0
  · rw [if_pos hmask] at hundone ⊢
    rw [compressMasked, hmask, appliedFilters_zero] at hc
    exact foldlM_decompressFilter hinverts hundone hc
  · rw [if_neg hmask] at hundone ⊢
    exact hc.symm.trans hundone

/-- Otherwise it does not, as far as what is cut off is not seen by another decoder. -/
theorem StoredMasked.undone (hfirst : PcodecFirst pipeline.filters)
    (hdecode : chunkData (decompressChunk decoders) fileData (some pipeline) total elementSize
      info = .ok raw) : Undone codecs pipeline elementSize info.filterMask raw := by
  obtain ⟨c, hc, hsize, hstands⟩ := h.stored
  rw [chunkData_of_stored hfile hsize hstands] at hdecode
  unfold Undone
  by_cases hmask : info.filterMask = 0
  · rw [if_pos hmask] at hdecode ⊢
    rw [compressMasked, hmask, appliedFilters_zero] at hc
    by_contra hfits
    exact ne_of_not_fits hinverts hfirst hc hfits hdecode
  · rw [if_neg hmask] at hdecode ⊢
    exact hc.trans hdecode

end

/-! ### The paths -/

section

variable {decoders : Decoders} {pipeline : FilterPipeline} {fileData : Bytes}
  {total elementSize rank : ℕ} {chunks : List ChunkInfo} {raws : List Bytes}

/-- Each path decodes the chunks to the same data: one after the other or in lanes for which there
is room, and through any cache that has a slot and holds nothing wrong. A chunk of a plan has no
offsets beyond the rank. -/
structure EveryPathReturns (decoders : Decoders) (fileData : Bytes) (pipeline : FilterPipeline)
    (total elementSize rank : ℕ) (chunks : List ChunkInfo) (raws : List Bytes) : Prop where
  sequential (lanes : Option (ℕ × List ℕ)) : (∀ l ∈ lanes, LanesFit chunks.length l.1) →
    decompressAllChunks (decompressChunk decoders) lanes fileData chunks (some pipeline) total
      elementSize = .ok raws
  lanes (seed : UInt64) (numLanes : Option ℕ) (parallelism : ℕ) (order : List ℕ) :
    LanesFit chunks.length (numLanes.getD parallelism) →
    ∃ stats, decompressChunksLanePartitioned (decompressChunk decoders) fileData chunks pipeline
      total elementSize seed numLanes parallelism order = .ok (raws, stats)
  cached (cache : ChunkCache) : 0 < cache.maxSlots →
    cache.Coherent (chunkData (decompressChunk decoders) fileData (some pipeline) total elementSize)
      rank chunks →
    ∃ cache', decodeCached (chunkData (decompressChunk decoders) fileData (some pipeline) total
      elementSize) rank chunks cache = .ok raws cache'
  sweep (cache : ChunkCache) (context : SweepContext) : 0 < cache.maxSlots →
    cache.Coherent (chunkData (decompressChunk decoders) fileData (some pipeline) total elementSize)
      rank chunks → context.Usable →
    ∃ context' cache', decodeSweep (chunkData (decompressChunk decoders) fileData (some pipeline)
      total elementSize) rank chunks context cache = .ok (raws, context') cache'
  indexed (cache : ChunkCache) (mappings : List ChunkMapping) : 0 < cache.maxSlots →
    cache.Coherent (chunkData (decompressChunk decoders) fileData (some pipeline) total elementSize)
      rank chunks →
    mappings.map (·.info) =
      chunks.map (fun info => { info with offsets := info.offsets.take rank }) →
    ∃ cache', decodeMappings (chunkData (decompressChunk decoders) fileData (some pipeline) total
      elementSize) mappings cache = .ok raws cache'

/-- Through a cache that holds nothing wrong, chunks that can be decoded are. -/
theorem decodeCached_eq_ok {decode : ChunkInfo → Run Bytes} {cache : ChunkCache}
    (hslots : 0 < cache.maxSlots) (hcoherent : cache.Coherent decode rank chunks)
    (hdistinct : ∀ info ∈ chunks, ∀ info' ∈ chunks,
      info'.offsets.take rank = info.offsets.take rank → decode info' = decode info)
    (h : chunks.mapM decode = .ok raws) :
    ∃ cache', decodeCached decode rank chunks cache = .ok raws cache' := by
  have hrun := ensures_decodeCached hslots hcoherent hdistinct fun _ hinfo => hinfo
  cases hdecode : decodeCached decode rank chunks cache with
  | ok datas cache' =>
    obtain ⟨hdatas, -⟩ := hrun.of_ok hdecode
    exact ⟨cache', by rw [Except.ok.inj (h.symm.trans hdatas)]⟩
  | error e cache' =>
    rw [hdecode] at hrun
    cases h.symm.trans hrun.1

/-- When each chunk can be decoded, every path does so. -/
theorem everyPathReturns {job : LaneJob} (hjob : job.decompressChunk = decompressChunk decoders)
    (hdistinct : (job.chunks.map fun info => info.offsets.take rank).Nodup)
    (hlane : ∀ info ∈ job.chunks, job.chunk info = job.sequentialChunk info)
    (h : job.chunks.mapM job.sequentialChunk = .ok raws) :
    EveryPathReturns decoders job.fileData job.pipeline job.chunkTotalBytes job.elementSize rank
      job.chunks raws := by
  have hlanes (numLanes : Option ℕ) (parallelism : ℕ) :=
    @LaneJob.run_eq_ok job numLanes parallelism raws (by rw [← h, mapM_congr_left hlane])
  have hsame : ∀ info ∈ job.chunks, ∀ info' ∈ job.chunks,
      info'.offsets.take rank = info.offsets.take rank →
        job.sequentialChunk info' = job.sequentialChunk info := by
    intro info hinfo info' hinfo' hcoord
    rw [inj_on_of_nodup_map hdistinct hinfo' hinfo hcoord]
  obtain ⟨_, fileData, chunks, pipeline, total, elementSize⟩ := job
  obtain rfl := hjob
  constructor
  · intro lanes hfit
    cases lanes with
    | none => exact h
    | some schedule =>
      obtain ⟨parallelism, order⟩ := schedule
      unfold decompressAllChunks
      split_ifs
      · have hfit := hfit (parallelism, order) (Option.mem_some_self _)
        obtain ⟨stats, hstats⟩ := hlanes none parallelism hfit
          (UInt64.ofNat ((chunks.head?.map (·.address)).getD 0) ^^^ UInt64.ofNat chunks.length)
          order
        exact congrArg (· >>= _) hstats
      · exact h
  · intro seed numLanes parallelism order hfit
    exact hlanes numLanes parallelism hfit seed order
  · intro cache hslots hcoherent
    exact decodeCached_eq_ok hslots hcoherent hsame h
  · intro cache context hslots hcoherent husable
    obtain ⟨context', hsweep⟩ := husable.decodeSweep_eq chunks
    obtain ⟨cache', hcache⟩ := decodeCached_eq_ok hslots hcoherent hsame h
    refine ⟨context', cache', ?_⟩
    rw [hsweep]
    exact map_ok hcache
  · intro cache mappings hslots hcoherent hmappings
    have hcoords : ∀ mapping ∈ mappings, mapping.coord.length ≤ rank := by
      intro mapping hmapping
      have hmem : mapping.info ∈ chunks.map fun info =>
          { info with offsets := info.offsets.take rank } :=
        hmappings ▸ mem_map_of_mem hmapping
      obtain ⟨info, -, hinfo⟩ := mem_map.mp hmem
      have hcoord : info.offsets.take rank = mapping.coord := congrArg ChunkInfo.offsets hinfo
      rw [← hcoord]
      exact length_take_le _ _
    rw [decodeMappings_eq hcoords, hmappings]
    have htake (xs : List ℕ) : (xs.take rank).take rank = xs.take rank := by
      rw [take_take, min_self]
    -- the offsets of a chunk play no part in decoding it
    refine decodeCached_eq_ok hslots ?_ ?_ (by rwa [mapM_map])
    · intro slot hslot
      refine forall_mem_map.mpr fun info hinfo hcoord => ?_
      exact hcoherent slot hslot info hinfo ((htake _).symm.trans hcoord)
    · refine forall_mem_map.mpr fun info hinfo => forall_mem_map.mpr ?_
      intro info' hinfo' hcoord
      exact hsame info hinfo info' hinfo' (by simpa only [htake] using hcoord)

end

/-- Every path returns the raw data of chunks that were produced under their masks, when the filters
that were applied are undone or changed nothing; and where no compressor stands before Pcodec, only
then. -/
theorem masked_paths {codecs : Codecs} {decoders : Decoders} (hinverts : decoders.Inverts codecs)
    {pipeline : FilterPipeline} {fileData : Bytes} (hfile : fileData.length < 2 ^ 63)
    {elementSize total rank : ℕ} {chunks : List ChunkInfo} {raws : List Bytes}
    (hdistinct : (chunks.map fun info => info.offsets.take rank).Nodup)
    (hstored : Forall₂ (StoredMasked codecs pipeline elementSize fileData) chunks raws) :
    (Forall₂ (fun info raw => Undone codecs pipeline elementSize info.filterMask raw)
        chunks raws →
      EveryPathReturns decoders fileData pipeline total elementSize rank chunks raws) ∧
    (PcodecFirst pipeline.filters →
      EveryPathReturns decoders fileData pipeline total elementSize rank chunks raws →
        Forall₂ (fun info raw => Undone codecs pipeline elementSize info.filterMask raw)
          chunks raws) := by
  constructor
  · intro hundone
    refine @everyPathReturns _ _ _ ⟨_, fileData, chunks, pipeline, total, elementSize⟩ rfl hdistinct
      ?_ (mapM_eq_ok.mpr ?_)
    · intro info hinfo
      obtain ⟨raw, -, hraw⟩ := exists_of_mem_right hstored.flip hinfo
      obtain ⟨c, -, hsize, hstands⟩ := hraw.stored
      exact laneChunk_of_stored hfile hsize hstands
    · exact hstored.mp (fun info raw h hraw => h.chunkData_eq hinverts hfile hraw) hundone
  · intro hfirst hpaths
    have hdecode := mapM_eq_ok.mp (hpaths.sequential none nofun)
    exact hstored.mp (fun info raw h hraw => h.undone hinverts hfile hfirst hraw) hdecode

/-- A file with two chunks of the same data, the first of which has passed through all filters and
the second through none. -/
def maskedFile : Bytes :=
  [8, 0, 0, 0, 0x80, 1, 5, 2, 6, 3, 7, 4, 8, 10, 162, 32, 244, 1, 2, 3, 4, 5, 6, 7, 8]

def maskedChunks : List ChunkInfo := [⟨17, 0, [0], 0⟩, ⟨8, 7, [2], 17⟩]

theorem masked_paths_two :
    EveryPathReturns literalDecoders maskedFile samplePipeline 8 4 1 maskedChunks
      [[1, 2, 3, 4, 5, 6, 7, 8], [1, 2, 3, 4, 5, 6, 7, 8]] := by
  refine (@masked_paths literalCodecs literalDecoders literalDecoders_inverts samplePipeline
    maskedFile (by decide) 4 8 1 maskedChunks _ (by decide) ?_).1 ?_
  · refine .cons ⟨by decide, maskedFile.take 17, by decide +kernel, rfl, ?_⟩
      (.cons ⟨by decide, maskedFile.drop 17, by decide +kernel, rfl, ?_⟩ .nil)
    · exact ⟨[], maskedFile.drop 17, rfl, rfl⟩
    · exact ⟨maskedFile.take 17, [], rfl, rfl⟩
  · exact .cons (by decide +kernel) (.cons (by decide +kernel) .nil)

/-- A chunk for which the first of two filters was skipped is returned with the checksum of the
second. -/
theorem skipped_filter_kept :
    literalDecoders.Inverts literalCodecs ∧
      compressMasked literalCodecs [1, 2, 3, 4]
        ⟨2, [⟨filterShuffle, none, 0, []⟩, ⟨filterFletcher32, none, 0, []⟩]⟩ 4 1 =
          .ok [1, 2, 3, 4, 6, 4, 8, 5] ∧
      decompressAllChunks (decompressChunk literalDecoders) none [1, 2, 3, 4, 6, 4, 8, 5]
        [⟨8, 1, [0], 0⟩]
        (some ⟨2, [⟨filterShuffle, none, 0, []⟩, ⟨filterFletcher32, none, 0, []⟩]⟩) 4 4 =
          .ok [[1, 2, 3, 4, 6, 4, 8, 5]] :=
  ⟨literalDecoders_inverts, by decide +kernel, by decide +kernel⟩

end ClawHdf5.Format
