import ClawHdf5.Format.Checksum
import ClawHdf5.Math.MachineInt
import ClawHdf5.Math.RowMajor

/-!
# Chunk records

What the chunk indexes store and return: where a chunk lies in the file, how large it is, and
which part of the dataset it covers. A fixed or extensible array stores one element per chunk in
row-major order; the element is the chunk's address and, for filtered datasets, its size in a
field whose width depends on the size of an unfiltered chunk, and its filter mask.
-/

namespace ClawHdf5.Format

open Bytes RowMajor List

/-- A chunk of a dataset, as an index describes it. -/
structure ChunkInfo where
  chunkSize : ℕ
  filterMask : ℕ
  offsets : List ℕ
  address : ℕ
  deriving DecidableEq

structure WrittenChunk where
  address : ℕ
  compressedSize : ℕ
  rawSize : ℕ
  filterMask : ℕ
  deriving DecidableEq

/-! ### Elements of an index -/

/-- The width of the size field of a filtered element. -/
def chunkSizeBytes (chunks : List WrittenChunk) (hasFilters : Bool) : ℕ :=
  if hasFilters then
    let maxRaw := match chunks.map (·.rawSize) with
      | [] => 1
      | n :: ns => ns.foldl max n
    let log2 := if maxRaw ≤ 1 then 0 else Nat.log2 maxRaw
    min (1 + (log2 + 8) / 8) 8
  else 0

def elementSize (chunks : List WrittenChunk) (offsetSize : ℕ) (hasFilters : Bool) : ℕ :=
  if hasFilters then offsetSize + chunkSizeBytes chunks hasFilters + 4 else offsetSize

/-- An address, in four bytes or in eight. -/
def writeAddress (offsetSize address : ℕ) : Bytes :=
  if offsetSize = 4 then leBytes 4 address else leBytes 8 address

def writeChunkElement (offsetSize : ℕ) (hasFilters : Bool) (sizeBytes : ℕ)
    (chunk : WrittenChunk) : Bytes :=
  writeAddress offsetSize chunk.address ++
    if hasFilters then
      (leBytes 8 chunk.compressedSize).take sizeBytes ++ leBytes 4 chunk.filterMask
    else []

def writeUndefinedElement (offsetSize : ℕ) (hasFilters : Bool) (sizeBytes : ℕ) : Bytes :=
  replicate offsetSize 0xff ++
    if hasFilters then replicate sizeBytes 0 ++ leBytes 4 0 else []

def readVariableLength (data : Bytes) (size : ℕ) : Run ℕ :=
  if size > 8 ∨ data.length < size then
    fail (.chunkedReadError "invalid variable-length size")
  else .ok (ofLeBytes (data.take size))

/-! ### The grid of chunks -/

/-- How many chunks there are on each axis. -/
def chunkCounts (datasetDims chunkDims : List ℕ) : List ℕ :=
  zipWith (fun dim chunk => (dim + chunk - 1) / chunk) datasetDims chunkDims

/-- How many chunks there are on each axis. No chunk dimension may be zero, and each needs a
dimension of the dataset. -/
def numChunksPerDim : List ℕ → List ℕ → Run (List ℕ)
  | _, [] => .ok []
  | datasetDims, chunk :: chunkDims =>
    if chunk = 0 then fail (.chunkedReadError "chunk dimension is zero")
    else
      match datasetDims with
      | [] => .error .panic
      | dim :: datasetDims => do
        let counts ← numChunksPerDim datasetDims chunkDims
        .ok ((dim + chunk - 1) / chunk :: counts)

/-- The offsets of chunk `index`, and what is left of the index, from the last axis on. An axis
without chunks is skipped. -/
def chunkOffsetsFrom : List ℕ → List ℕ → ℕ → List ℕ × ℕ
  | count :: counts, dim :: dims, index =>
    let (offsets, rest) := chunkOffsetsFrom counts dims index
    if count = 0 then (0 :: offsets, rest)
    else (rest % count * dim :: offsets, rest / count)
  | _, _, index => ([], index)

def indexToChunkOffsets (index : ℕ) (counts chunkDims : List ℕ) : List ℕ :=
  (chunkOffsetsFrom counts chunkDims index).1

def gridOffsets (c chunkDims : List ℕ) : List ℕ := zipWith (· * ·) c chunkDims

theorem chunkOffsetsFrom_eq {counts chunkDims : List ℕ} (hpos : ∀ n ∈ counts, n ≠ 0)
    (hlen : counts.length = chunkDims.length) (index : ℕ) :
    chunkOffsetsFrom counts chunkDims index =
      (gridOffsets (digits counts index).1 chunkDims, (digits counts index).2) := by
  induction counts generalizing chunkDims with
  | nil => simp [chunkOffsetsFrom, digits, gridOffsets]
  | cons count counts ih =>
    obtain ⟨hcount, hcounts⟩ := forall_mem_cons.mp hpos
    cases chunkDims with
    | nil => simp at hlen
    | cons dim dims =>
      rw [chunkOffsetsFrom, ih hcounts (Nat.succ_injective hlen)]
      simp [if_neg hcount, digits, gridOffsets]

theorem indexToChunkOffsets_eq {counts chunkDims : List ℕ} {index : ℕ}
    (hlen : counts.length = chunkDims.length) (hindex : index < counts.prod) :
    indexToChunkOffsets index counts chunkDims =
      gridOffsets (unflatten counts index) chunkDims := by
  have hpos : ∀ n ∈ counts, n ≠ 0 := fun n hn => (pos_of_lt_prod hindex hn).ne'
  rw [indexToChunkOffsets, chunkOffsetsFrom_eq hpos hlen, digits_eq, Nat.mod_eq_of_lt hindex]

theorem numChunksPerDim_eq {datasetDims chunkDims : List ℕ} (hpos : ∀ n ∈ chunkDims, n ≠ 0)
    (hlen : datasetDims.length = chunkDims.length) :
    numChunksPerDim datasetDims chunkDims = .ok (chunkCounts datasetDims chunkDims) := by
  induction chunkDims generalizing datasetDims with
  | nil => simp [numChunksPerDim, chunkCounts]
  | cons chunk chunkDims ih =>
    obtain ⟨hchunk, hchunks⟩ := forall_mem_cons.mp hpos
    cases datasetDims with
    | nil => simp at hlen
    | cons dim datasetDims =>
      rw [numChunksPerDim, if_neg hchunk]
      simp only [ih hchunks (Nat.succ_injective hlen)]
      rfl

@[simp] theorem length_chunkCounts (datasetDims chunkDims : List ℕ) :
    (chunkCounts datasetDims chunkDims).length = min datasetDims.length chunkDims.length :=
  length_zipWith

theorem exists_grid_cell {datasetDims chunkDims c : List ℕ} (hpos : ∀ n ∈ chunkDims, n ≠ 0)
    (hlen : chunkDims.length = datasetDims.length) (hc : InBounds datasetDims c) :
    ∃ g d, InBounds (chunkCounts datasetDims chunkDims) g ∧ InBounds chunkDims d ∧
      shift (gridOffsets g chunkDims) d = c := by
  induction hc generalizing chunkDims with
  | nil =>
    obtain rfl := length_eq_zero_iff.mp hlen
    exact ⟨[], [], .nil, .nil, rfl⟩
  | @cons x dim c datasetDims hx _ ih =>
    match chunkDims, hlen with
    | chunk :: chunkDims, hlen =>
      obtain ⟨hchunk, hchunks⟩ := forall_mem_cons.mp hpos
      have hchunk : 0 < chunk := pos_of_ne_zero hchunk
      obtain ⟨g, d, hg, hd, hshift⟩ := ih hchunks (Nat.succ_injective hlen)
      refine ⟨x / chunk :: g, x % chunk :: d, inBounds_cons.mpr ⟨?_, hg⟩,
        inBounds_cons.mpr ⟨Nat.mod_lt x hchunk, hd⟩, ?_⟩
      · rw [Nat.div_lt_iff_lt_mul hchunk]
        have hceil := Nat.div_add_mod' (dim + chunk - 1) chunk
        have hmod := Nat.mod_lt (dim + chunk - 1) hchunk
        dsimp only
        omega
      · simp only [gridOffsets, zipWith_cons_cons, shift] at hshift ⊢
        rw [hshift, Nat.div_add_mod']

/-! ### Chunks that an element can describe -/

/-- The chunk as a reader returns it, when its offsets are `offsets`. -/
def WrittenChunk.info (chunk : WrittenChunk) (offsets : List ℕ) : ChunkInfo :=
  ⟨chunk.compressedSize, chunk.filterMask, offsets, chunk.address⟩

/-- The chunks of a grid in row-major order, as a reader returns them. -/
def gridInfos (counts chunkDims : List ℕ) (chunks : List WrittenChunk) : List ChunkInfo :=
  chunks.mapIdx fun i chunk => chunk.info (indexToChunkOffsets i counts chunkDims)

/-- The chunk's address and filter mask are words of their types. -/
structure WrittenChunk.Typed (chunk : WrittenChunk) : Prop where
  address_lt : chunk.address < 2 ^ 64
  filterMask_lt : chunk.filterMask < 2 ^ 32

/-- What a reader makes of the chunk's element: its address, size and filter mask. The undefined
address stands for no chunk. An element of a filtered chunk has a size field of `sizeBytes` bytes;
one of an unfiltered chunk has neither size nor filter mask, and its size is `chunkByteSize`. -/
def WrittenChunk.readBack (hasFilters : Bool) (sizeBytes chunkByteSize : ℕ)
    (chunk : WrittenChunk) : Option (ℕ × ℕ × ℕ) :=
  if chunk.address = 2 ^ 64 - 1 then none
  else if hasFilters then
    some (chunk.address, chunk.compressedSize % 256 ^ sizeBytes % 2 ^ 32, chunk.filterMask)
  else some (chunk.address, chunkByteSize % 2 ^ 32, 0)

/-- The chunk is read back from its element unchanged. -/
structure WrittenChunk.Fits (hasFilters : Bool) (sizeBytes chunkByteSize : ℕ)
    (chunk : WrittenChunk) : Prop where
  typed : chunk.Typed
  readBack_eq : chunk.readBack hasFilters sizeBytes chunkByteSize =
    some (chunk.address, chunk.compressedSize, chunk.filterMask)

theorem chunkSizeBytes_le (chunks : List WrittenChunk) (hasFilters : Bool) :
    chunkSizeBytes chunks hasFilters ≤ 8 := by
  cases hasFilters with
  | false => exact Nat.zero_le 8
  | true => exact min_le_right _ 8

@[simp] theorem length_writeAddress (address : ℕ) : (writeAddress 8 address).length = 8 :=
  length_leBytes 8 address

theorem writeChunkElement_filtered {sizeBytes : ℕ} (hsize : sizeBytes ≤ 8) (chunk : WrittenChunk) :
    writeChunkElement 8 true sizeBytes chunk = leBytes 8 chunk.address ++
        (leBytes sizeBytes chunk.compressedSize ++ leBytes 4 chunk.filterMask) := by
  rw [writeChunkElement, take_leBytes hsize]
  rfl

theorem writeChunkElement_unfiltered (sizeBytes : ℕ) (chunk : WrittenChunk) :
    writeChunkElement 8 false sizeBytes chunk = leBytes 8 chunk.address :=
  append_nil _

/-- Every element of an index has the size the header announces. -/
theorem length_writeChunkElement (chunks : List WrittenChunk) (hasFilters : Bool)
    (chunk : WrittenChunk) :
    (writeChunkElement 8 hasFilters (chunkSizeBytes chunks hasFilters) chunk).length =
      elementSize chunks 8 hasFilters := by
  cases hasFilters with
  | false => rw [writeChunkElement_unfiltered]; rfl
  | true =>
    rw [writeChunkElement_filtered (chunkSizeBytes_le chunks true)]
    simp [elementSize, add_assoc]

theorem readVariableLength_of_standsAt {data : Bytes} {size n : ℕ}
    (h : StandsAt data 0 (leBytes size n)) (hsize : size ≤ 8) :
    readVariableLength data size = .ok (n % 256 ^ size) := by
  have hle := h.le
  have htake := h.take_drop
  rw [length_leBytes] at hle htake
  rw [drop_zero] at htake
  rw [readVariableLength, if_neg (by omega), htake, ofLeBytes_leBytes]

section

variable {file : Bytes} {pos sizeBytes : ℕ} {chunk : WrittenChunk} (hfile : file.length < 2 ^ 64)
  (hchunk : chunk.Typed)
include hfile hchunk

theorem filteredElement_of_standsAt (hsize : sizeBytes ≤ 8)
    (h : StandsAt file pos (writeChunkElement 8 true sizeBytes chunk)) :
    isUndefined file pos 8 = .ok (decide (chunk.address = 2 ^ 64 - 1)) ∧
      readOffset file pos 8 = .ok chunk.address ∧
      sliceFrom file (pos + 8) = .ok (file.drop (pos + 8)) ∧
      readVariableLength (file.drop (pos + 8)) sizeBytes =
        .ok (chunk.compressedSize % 256 ^ sizeBytes) ∧
      leAt file (pos + 8 + sizeBytes) 4 = .ok chunk.filterMask := by
  have hle := h.le
  rw [writeChunkElement_filtered hsize] at h hle
  simp only [length_append, length_leBytes] at hle
  obtain ⟨haddress, hrest⟩ := standsAt_append.mp h
  rw [length_leBytes] at hrest
  obtain ⟨hslice, hstart⟩ := sliceFrom_of_standsAt hrest
  have hmask := (standsAt_append.mp hrest).2
  rw [length_leBytes] at hmask
  exact ⟨isUndefined_address_of_standsAt haddress hchunk.address_lt (by omega),
    readOffset_of_standsAt haddress hchunk.address_lt (by decide) (by omega), hslice,
    readVariableLength_of_standsAt (standsAt_append.mp hstart).1 hsize,
    leAt_of_standsAt hmask hchunk.filterMask_lt⟩

theorem unfilteredElement_of_standsAt
    (h : StandsAt file pos (writeChunkElement 8 false sizeBytes chunk)) :
    isUndefined file pos 8 = .ok (decide (chunk.address = 2 ^ 64 - 1)) ∧
      readOffset file pos 8 = .ok chunk.address := by
  have hle := h.le
  rw [writeChunkElement_unfiltered] at h hle
  rw [length_leBytes] at hle
  exact ⟨isUndefined_address_of_standsAt h hchunk.address_lt (by omega),
    readOffset_of_standsAt h hchunk.address_lt (by decide) (by omega)⟩

end

/-! ### Sizes that fit their field -/

/-- When all unfiltered chunks have the same size, the field's width depends on that size. -/
theorem chunkSizeBytes_eq {chunks : List WrittenChunk} {n : ℕ} (hne : chunks ≠ [])
    (hraw : ∀ chunk ∈ chunks, chunk.rawSize = n) :
    chunkSizeBytes chunks true = min (2 + (if n ≤ 1 then 0 else Nat.log2 n) / 8) 8 := by
  have hfold : ∀ chunks : List WrittenChunk, (∀ chunk ∈ chunks, chunk.rawSize = n) →
      (chunks.map (·.rawSize)).foldl max n = n := by
    intro chunks
    induction chunks with
    | nil => exact fun _ => rfl
    | cons chunk chunks ih =>
      intro h
      obtain ⟨hchunk, hchunks⟩ := forall_mem_cons.mp h
      rw [map_cons, foldl_cons, hchunk, max_self, ih hchunks]
  cases chunks with
  | nil => exact absurd rfl hne
  | cons chunk chunks =>
    obtain ⟨rfl, hchunks⟩ := forall_mem_cons.mp hraw
    simp only [chunkSizeBytes, if_true, map_cons, hfold chunks hchunks]
    omega

/-- A size is below the capacity of its field when it is at most `128` times that of an
unfiltered chunk and a constant. -/
theorem lt_of_chunkSizeBytes {chunks : List WrittenChunk} {n size : ℕ} (hne : chunks ≠ [])
    (hraw : ∀ chunk ∈ chunks, chunk.rawSize = n) (hle : size ≤ 128 * n + 32767)
    (hlt : size < 2 ^ 64) : size < 256 ^ chunkSizeBytes chunks true := by
  rw [chunkSizeBytes_eq hne hraw]
  set k := (if n ≤ 1 then 0 else Nat.log2 n) / 8 with hk
  rcases le_total (2 + k) 8 with hmin | hmin
  · have hn : n < 256 ^ (k + 1) := by
      split_ifs at hk with hn
      · have : 256 ^ 1 ≤ 256 ^ (k + 1) := Nat.pow_le_pow_right (by decide) (by omega)
        omega
      · calc n < 2 ^ (Nat.log2 n + 1) := Nat.lt_log2_self
          _ ≤ 2 ^ (8 * (k + 1)) := Nat.pow_le_pow_right two_pos (by omega)
          _ = 256 ^ (k + 1) := by rw [Nat.pow_mul]
    rw [min_eq_left hmin, pow_add]
    omega
  · rw [min_eq_right hmin]
    omega

end ClawHdf5.Format
