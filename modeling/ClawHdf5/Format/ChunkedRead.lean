import ClawHdf5.Format.ChunkCopy
import ClawHdf5.Format.DataLayout
import ClawHdf5.Format.EaWriter
import ClawHdf5.Format.FilterPipeline

/-!
# Reading chunked datasets

A chunked dataset is read by listing its chunks through the index the layout names, undoing the
filters of each chunk, and copying the chunks row by row into a buffer of zeros. Rows that lie
outside the dataset are skipped, and the last axis is clipped.
-/

namespace ClawHdf5.Format

open Bytes Fallible RowMajor

/-! ### Dataspaces -/

inductive DataspaceType
  | scalar
  | simple
  | null
  deriving DecidableEq

/-- The shape of a dataset. -/
structure Dataspace where
  spaceType : DataspaceType
  dimensions : List ℕ
  deriving DecidableEq

def Dataspace.numElements (d : Dataspace) : ℕ :=
  match d.spaceType with
  | .null => 0
  | .scalar => 1
  | .simple => if d.dimensions = [] then 0 else d.dimensions.prod

/-! ### Version 1 B-trees -/

/-- The deepest level of a B-tree that is visited. -/
def maxChunkBtreeDepth : ℕ := 64

def readKeyOffsets (fileData : Bytes) (offsetSize : ℕ) : (ndims pos : ℕ) → Run (List ℕ)
  | 0, _ => .ok []
  | ndims + 1, pos => do
    let offset ← readOffset fileData pos offsetSize
    let offsets ← readKeyOffsets fileData offsetSize ndims (pos + offsetSize)
    .ok (offset :: offsets)

/-- The entries of a leaf: a key and the address of the chunk, one after another. -/
def readLeafEntries (fileData : Bytes) (ndims offsetSize : ℕ) :
    (entries pos : ℕ) → Run (List ChunkInfo)
  | 0, _ => .ok []
  | entries + 1, pos => do
    let keySize := 4 + 4 + ndims * offsetSize
    let chunkSize ← leAt fileData pos 4
    let filterMask ← leAt fileData (pos + 4) 4
    let offsets ← readKeyOffsets fileData offsetSize ndims (pos + 8)
    let address ← readOffset fileData (pos + keySize) offsetSize
    let rest ← readLeafEntries fileData ndims offsetSize entries (pos + keySize + offsetSize)
    .ok (⟨chunkSize, filterMask, offsets, address⟩ :: rest)

/-- The addresses of the children of an internal node. -/
def readChildAddresses (fileData : Bytes) (ndims offsetSize : ℕ) :
    (entries pos : ℕ) → Run (List ℕ)
  | 0, _ => .ok []
  | entries + 1, pos => do
    let keySize := 4 + 4 + ndims * offsetSize
    let child ← readOffset fileData (pos + keySize) offsetSize
    let rest ← readChildAddresses fileData ndims offsetSize entries (pos + keySize + offsetSize)
    .ok (child :: rest)

/-- The chunks below the node at `btreeAddress`. The node's depth is
`maxChunkBtreeDepth + 1 - fuel`. -/
def collectChunkInfoInner (fileData : Bytes) (ndims offsetSize : ℕ) :
    (fuel btreeAddress : ℕ) → Run (List ChunkInfo)
  | 0, _ => fail .nestingDepthExceeded
  | fuel + 1, offset => do
    let headerSize := 8 + offsetSize * 2
    ensureLen fileData offset headerSize
    let signature ← slice fileData offset (offset + 4)
    reject (signature ≠ utf8Bytes "TREE") (.error .invalidBTreeSignature)
    let nodeType ← byteAt fileData (offset + 4)
    reject (nodeType ≠ 1) (.error (.invalidBTreeNodeType nodeType))
    let nodeLevel ← byteAt fileData (offset + 5)
    let entriesUsed ← leAt fileData (offset + 6) 2
    let pos := offset + headerSize
    let keySize := 4 + 4 + ndims * offsetSize
    let needed := entriesUsed * (keySize + offsetSize) + keySize
    reject (fileData.length < pos + needed)
      (.error (.unexpectedEof (pos + needed) fileData.length))
    if nodeLevel = 0 then readLeafEntries fileData ndims offsetSize entriesUsed pos
    else do
      let children ← readChildAddresses fileData ndims offsetSize entriesUsed pos
      let chunks ← children.mapM (collectChunkInfoInner fileData ndims offsetSize fuel)
      .ok chunks.flatten

/-- The chunks of the B-tree at `btreeAddress`. -/
def collectChunkInfo (fileData : Bytes) (btreeAddress ndims offsetSize : ℕ) :
    Run (List ChunkInfo) :=
  collectChunkInfoInner fileData ndims offsetSize (maxChunkBtreeDepth + 1) btreeAddress

/-! ### Implicit indexes -/

/-- The size of a chunk, multiplied out from the size of an element. -/
def implicitChunkBytes : (chunkDims : List ℕ) → (size : ℕ) → Run ℕ
  | [], size => .ok size
  | dim :: chunkDims, size => do
    reject (dim = 0) (.error (.chunkedReadError "implicit chunks: zero chunk dimension"))
    reject (2 ^ 64 ≤ size * dim) (.error (.overflow "implicit chunks: chunk byte size"))
    implicitChunkBytes chunkDims (size * dim)

/-- The number of chunks, multiplied out over the axes. -/
def implicitTotal : (counts : List ℕ) → (total : ℕ) → Run ℕ
  | [], total => .ok total
  | count :: counts, total => do
    reject (2 ^ 64 ≤ total * count) (.error (.overflow "implicit chunks: total chunk count"))
    implicitTotal counts (total * count)

def implicitChunk (baseAddress chunkByteSize : ℕ) (counts chunkDims : List ℕ) (index : ℕ) :
    Run ChunkInfo := do
  let offsets := gridOffsets (digits counts index).1 chunkDims
  reject (∃ offset ∈ offsets, 2 ^ 64 ≤ offset) (.error (.overflow "implicit chunks: offset"))
  reject (2 ^ 64 ≤ index * chunkByteSize)
    (.error (.overflow "implicit chunks: chunk address offset"))
  reject (2 ^ 64 ≤ baseAddress + index * chunkByteSize)
    (.error (.overflow "implicit chunks: chunk address"))
  reject (2 ^ 32 ≤ chunkByteSize) (.error (.overflow "implicit chunks: u32 chunk size"))
  .ok ⟨chunkByteSize, 0, offsets, baseAddress + index * chunkByteSize⟩

/-- The size of a `ChunkInfo` in memory: two halves of a word, a vector and a word. -/
def chunkInfoSize : ℕ := 40

/-- The chunks of an implicit index: they stand one behind another from `baseAddress` on. Space for
all of them is allocated first. -/
def generateImplicitChunks (baseAddress : ℕ) (datasetDims chunkDims : List ℕ) (elementSize : ℕ) :
    Run (List ChunkInfo) := do
  let rank := chunkDims.length
  let dims := datasetDims.length
  reject (dims < rank) (.error (.chunkedReadError
    s!"implicit chunks: dataspace has {dims} dims, chunk has {rank}"))
  let chunkByteSize ← implicitChunkBytes chunkDims elementSize
  let counts := chunkCounts datasetDims chunkDims
  let total ← implicitTotal counts 1
  -- a vector of more than `isize::MAX` bytes
  reject (2 ^ 63 ≤ total * chunkInfoSize) .panic
  (List.range total).mapM (implicitChunk baseAddress chunkByteSize counts chunkDims)

/-! ### The chunks of a layout -/

/-- What all reads of a chunked dataset take from its layout and dataspace. -/
structure ChunkedDataset where
  layout : ChunkedLayout
  addr : ℕ
  dsDims : List ℕ
  chunkDims : List ℕ
  deriving DecidableEq

/-- Check a layout and a dataspace against each other. -/
def resolveChunked (layout : DataLayout) (dataspace : Dataspace) : Run ChunkedDataset :=
  match layout with
  | .chunked layout => do
    let addr ← okOr (.error (.chunkedReadError "no address for chunked layout"))
      layout.btreeAddress
    let ndims := layout.chunkDimensions.length
    reject (ndims = 0) (.error (.chunkedReadError "chunked layout has empty chunk_dimensions"))
    let rank := ndims - 1
    let dims := dataspace.dimensions.length
    reject (dims ≠ rank) (.error (.chunkedReadError
      s!"rank mismatch: dataspace has {dims} dims, layout has {ndims} chunk dims (rank={rank})"))
    .ok ⟨layout, addr, dataspace.dimensions, layout.chunkDimensions.take rank⟩
  | _ => fail (.chunkedReadError "expected chunked layout")

def showIndexType : Option ℕ → String
  | none => "None"
  | some t => s!"Some({t})"

def singleChunk (d : ChunkedDataset) (elemSize : ℕ) : ChunkInfo :=
  let offsets := List.replicate d.chunkDims.length 0
  match d.layout.singleChunkFilteredSize with
  | some size => ⟨size % 2 ^ 32, d.layout.singleChunkFilterMask.getD 0, offsets, d.addr⟩
  | none => ⟨d.chunkDims.prod * elemSize % 2 ^ 32, 0, offsets, d.addr⟩

/-- The chunks of a dataset, by the index its layout names. -/
def listChunks (fileData : Bytes) (d : ChunkedDataset) (elemSize offsetSize lengthSize : ℕ) :
    Run (List ChunkInfo) :=
  match d.layout.version, d.layout.chunkIndexType with
  | 3, _ => collectChunkInfo fileData d.addr d.layout.chunkDimensions.length offsetSize
  | 4, some 1 => .ok [singleChunk d elemSize]
  | 4, some 2 => generateImplicitChunks d.addr d.dsDims d.chunkDims elemSize
  | 4, some 3 => do
    let header ← FixedArrayHeader.parse fileData d.addr offsetSize lengthSize
    readFixedArrayChunks fileData header d.dsDims d.chunkDims elemSize offsetSize
  | 4, some 4 => do
    let header ← ExtensibleArrayHeader.parse fileData d.addr offsetSize lengthSize
    readExtensibleArrayChunks fileData header d.dsDims d.chunkDims elemSize offsetSize
  | version, indexType =>
    let shown := showIndexType indexType
    fail (.chunkedReadError
      s!"unsupported chunked layout version={version}, index_type={shown}")

/-! ### The read -/

def storedChunk (fileData : Bytes) (chunk : ChunkInfo) : Run Bytes := do
  let finish := chunk.address + chunk.chunkSize
  reject (2 ^ 64 ≤ finish) (.error (.overflow "chunk address + size overflows usize"))
  reject (fileData.length < finish) (.error (.unexpectedEof finish fileData.length))
  slice fileData chunk.address finish

section

variable (decompressChunk : Bytes → FilterPipeline → ℕ → ℕ → Run Bytes)

/-- The bytes of a chunk with its filters undone. A chunk with a filter mask is taken as it is. -/
def chunkData (fileData : Bytes) (pipeline : Option FilterPipeline)
    (chunkTotalBytes elemSize : ℕ) (chunk : ChunkInfo) : Run Bytes := do
  let raw ← storedChunk fileData chunk
  match pipeline with
  | some pl =>
    if chunk.filterMask = 0 then decompressChunk raw pl chunkTotalBytes elemSize else .ok raw
  | none => .ok raw

def readChunkedData (fileData : Bytes) (layout : DataLayout) (dataspace : Dataspace)
    (elemSize : ℕ) (pipeline : Option FilterPipeline) (offsetSize lengthSize : ℕ) :
    Run Bytes := do
  let d ← resolveChunked layout dataspace
  let chunks ← listChunks fileData d elemSize offsetSize lengthSize
  let output := List.replicate (dataspace.numElements * elemSize) 0
  let chunkTotalBytes := d.chunkDims.prod * elemSize
  -- without filters each chunk is copied as it is found; the output is lost when one fails
  let datas ← chunks.mapM (chunkData decompressChunk fileData pipeline chunkTotalBytes elemSize)
  .ok ((chunks.zip datas).foldl (fun output (chunk, data) =>
    placeChunk data output chunk.offsets d.chunkDims d.dsDims elemSize) output)

end

end ClawHdf5.Format
