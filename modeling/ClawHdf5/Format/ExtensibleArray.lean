import ClawHdf5.Format.ChunkRecord

/-!
# Reading extensible arrays

The index of a dataset with one unlimited dimension. The header leads to an index block, which
holds the first elements, the addresses of the first data blocks and the addresses of super
blocks; a super block holds the addresses of further data blocks. The sizes of the data blocks
are not stored: the reader derives them from the parameters in the header, level by level.
-/

namespace ClawHdf5.Format

open Bytes Fallible

structure ExtensibleArrayHeader where
  clientId : ℕ
  elementSize : ℕ
  maxNelmtsBits : ℕ
  idxBlkElmts : ℕ
  minDblkNelmts : ℕ
  superBlkMinNelmts : ℕ
  maxDblkNelmtsBits : ℕ
  numElements : ℕ
  indexBlockAddress : ℕ
  deriving DecidableEq

def ExtensibleArrayHeader.parse (fileData : Bytes) (offset offsetSize lengthSize : ℕ) :
    Run ExtensibleArrayHeader := do
  let minSize := 4 + 1 + 1 + 1 + 1 + 1 + 1 + 1 + 1 + 6 * lengthSize + offsetSize + 4
  reject (fileData.length < wrap (offset + minSize))
    (.error (.unexpectedEof (wrap (offset + minSize)) fileData.length))
  let d ← sliceFrom fileData offset
  let signature ← slice d 0 4
  reject (signature ≠ utf8Bytes "EAHD")
    (.error (.chunkedReadError "invalid Extensible Array header signature"))
  let version ← byteAt d 4
  reject (version ≠ 0)
    (.error (.chunkedReadError s!"unsupported Extensible Array header version: {version}"))
  let clientId ← byteAt d 5
  let elementSize ← byteAt d 6
  let maxNelmtsBits ← byteAt d 7
  let idxBlkElmts ← byteAt d 8
  let minDblkNelmts ← byteAt d 9
  let superBlkMinNelmts ← byteAt d 10
  let maxDblkNelmtsBits ← byteAt d 11
  -- four statistics come before the number of elements and one behind it
  let numElements ← readOffset d (12 + 4 * lengthSize) lengthSize
  let indexBlockAddress ← readOffset d (12 + 6 * lengthSize) offsetSize
  .ok ⟨clientId, elementSize, maxNelmtsBits, idxBlkElmts, minDblkNelmts, superBlkMinNelmts,
    maxDblkNelmtsBits, numElements, indexBlockAddress⟩

/-- Whether an address that was read is the undefined one. -/
def isUndefinedAddr (addr offsetSize : ℕ) : Bool :=
  (offsetSize = 2 ∧ addr = 2 ^ 16 - 1) ∨ (offsetSize = 4 ∧ addr = 2 ^ 32 - 1) ∨
    (offsetSize = 8 ∧ addr = 2 ^ 64 - 1)

/-! ### Elements -/

/-- What the readers of an array's elements share: the file, the header, and the grid of chunks. -/
structure EaContext where
  fileData : Bytes
  header : ExtensibleArrayHeader
  offsetSize : ℕ
  chunkByteSize : ℕ
  counts : List ℕ
  chunkDimensions : List ℕ

variable (ctx : EaContext)

/-- The element at `pos`: the chunk it describes, if one is allocated, and its size in bytes. -/
def readElement (linearIndex pos : ℕ) : Run (Option ChunkInfo × ℕ) :=
  let data := ctx.fileData
  let os := ctx.offsetSize
  let offsets := indexToChunkOffsets linearIndex ctx.counts ctx.chunkDimensions
  if ctx.header.clientId = 0 then do
    reject (data.length < wrap (pos + os)) (.error (.unexpectedEof (wrap (pos + os)) data.length))
    if ← isUndefined data pos os then .ok (none, os)
    else do
      let address ← readOffset data pos os
      .ok (some ⟨ctx.chunkByteSize % 2 ^ 32, 0, offsets, address⟩, os)
  else do
    let es := ctx.header.elementSize
    reject (es < os + 4)
      (.error (.chunkedReadError "element_size too small for filtered element"))
    let sizeBytes := es - os - 4
    let elemTotal := os + sizeBytes + 4
    ensureLen data pos elemTotal
    if ← isUndefined data pos os then .ok (none, elemTotal)
    else do
      let address ← readOffset data pos os
      let rest ← sliceFrom data (pos + os)
      let chunkSize ← readVariableLength rest sizeBytes
      let filterMask ← leAt data (pos + os + sizeBytes) 4
      .ok (some ⟨chunkSize % 2 ^ 32, filterMask, offsets, address⟩, elemTotal)

/-- The chunks of `count` elements from `pos` on, the first of which has the given number, and the
position behind them. -/
def readElements : (count index pos : ℕ) → Run (List ChunkInfo × ℕ)
  | 0, _, pos => .ok ([], pos)
  | count + 1, index, pos => do
    let (info, consumed) ← readElement ctx index pos
    let (infos, pos) ← readElements count (index + 1) (wrap (pos + consumed))
    .ok (info.toList ++ infos, pos)

/-! ### Data blocks -/

/-- The chunks of the pages of a data block, of which `remaining` are left. A page whose bit is
clear is skipped. -/
def readPages (bitmap : Bytes) (nelmts pageNelmts npages : ℕ) :
    (remaining index pos : ℕ) → Run (List ChunkInfo)
  | 0, _, _ => .ok []
  | remaining + 1, index, pos => do
    let page := npages - (remaining + 1)
    let elemBytes := if ctx.header.clientId = 0 then ctx.offsetSize else ctx.header.elementSize
    let bits ← byteAt bitmap (page / 8)
    let count :=
      if remaining = 0 then
        if nelmts % pageNelmts = 0 then pageNelmts else nelmts % pageNelmts
      else pageNelmts
    if bits.testBit (page % 8) then do
      let (infos, pos) ← readElements ctx count index pos
      let rest ← readPages bitmap nelmts pageNelmts npages remaining (index + count)
        (wrap (pos + 4))
      .ok (infos ++ rest)
    else
      readPages bitmap nelmts pageNelmts npages remaining (index + count)
        (wrap (pos + (count * elemBytes + 4)))

def readDataBlockElements (dbOffset nelmts startIndex : ℕ) : Run (List ChunkInfo) := do
  let fileData := ctx.fileData
  let dbHeaderSize := 4 + 1 + 1 + ctx.offsetSize
  reject (fileData.length < wrap (dbOffset + dbHeaderSize))
    (.error (.unexpectedEof (wrap (dbOffset + dbHeaderSize)) fileData.length))
  let d ← sliceFrom fileData dbOffset
  let signature ← slice d 0 4
  reject (signature ≠ utf8Bytes "EADB")
    (.error (.chunkedReadError "invalid Extensible Array data block signature"))
  let blkOffSize := (ctx.header.maxNelmtsBits + 7) / 8
  let pos := dbOffset + dbHeaderSize + blkOffSize
  reject (64 ≤ ctx.header.maxNelmtsBits)
    (.error (.overflow "max_nelmts_bits exceeds usize bit width"))
  let pageNelmts := 2 ^ ctx.header.maxNelmtsBits
  if nelmts ≤ pageNelmts then do
    let (infos, _) ← readElements ctx nelmts startIndex pos
    .ok infos
  else do
    let npages := (nelmts + pageNelmts - 1) / pageNelmts
    let bitmapSize := (npages + 7) / 8
    reject (fileData.length < wrap (pos + bitmapSize))
      (.error (.unexpectedEof (wrap (pos + bitmapSize)) fileData.length))
    let bitmap ← slice fileData pos (wrap (pos + bitmapSize))
    readPages ctx bitmap nelmts pageNelmts npages npages startIndex (wrap (pos + bitmapSize))

/-- What is read at `addr`: nothing when that is the undefined address. -/
def whenDefined (addr : ℕ) (read : Run (List ChunkInfo)) : Run (List ChunkInfo) :=
  if isUndefinedAddr addr ctx.offsetSize then .ok [] else read

/-- The chunks of data blocks of the given addresses and sizes, and the number of the element
behind them. A block whose address is undefined is skipped. -/
def readDataBlocks : (blocks : List (ℕ × ℕ)) → (index : ℕ) → Run (List ChunkInfo × ℕ)
  | [], index => .ok ([], index)
  | (addr, nelmts) :: blocks, index => do
    let infos ← whenDefined ctx addr (readDataBlockElements ctx addr nelmts index)
    let (rest, index) ← readDataBlocks blocks (index + nelmts)
    .ok (infos ++ rest, index)

/-! ### Super blocks -/

/-- The sizes of the data blocks whose addresses are in the index block, from level `level` on:
level `l` has `2 ^ l` of them, and the size doubles after every level but the first. -/
def directBlockSizes : (levels level nelmts : ℕ) → Run (List ℕ)
  | 0, _, _ => .ok []
  | levels + 1, level, nelmts => do
    reject (64 ≤ level) (.error (.overflow "sb_level exceeds usize bit width"))
    let rest ← directBlockSizes levels (level + 1)
      (if 0 < level then wrap (nelmts * 2) else nelmts)
    .ok (List.replicate (2 ^ level) nelmts ++ rest)

/-- How many data blocks each super block has, and of which size, until they cover the remaining
elements. The level is `64 - fuel`. -/
def superBlockSizes (remaining : ℕ) : (fuel covered nelmts : ℕ) → Run (List (ℕ × ℕ))
  | 0, covered, _ =>
    if covered < remaining then fail (.overflow "sb_level exceeds usize bit width") else .ok []
  | fuel + 1, covered, nelmts =>
    if covered < remaining then do
      let ndblks := 2 ^ (64 - (fuel + 1))
      let nelmts := wrap (nelmts * 2)
      let rest ← superBlockSizes remaining fuel (wrap (covered + ndblks * nelmts)) nelmts
      .ok ((ndblks, nelmts) :: rest)
    else .ok []

/-- Up to `count` addresses from `pos` on, and the position behind them. The end of the file ends
the list. -/
def readAddresses (fileData : Bytes) (offsetSize : ℕ) : (count pos : ℕ) → Run (List ℕ × ℕ)
  | 0, pos => .ok ([], pos)
  | count + 1, pos =>
    if fileData.length < wrap (pos + offsetSize) then .ok ([], pos)
    else do
      let addr ← readOffset fileData pos offsetSize
      let (addrs, pos) ← readAddresses fileData offsetSize count (pos + offsetSize)
      .ok (addr :: addrs, pos)

def superBlockAddresses (fileData : Bytes) (offsetSize : ℕ) : (count pos : ℕ) → Run (List ℕ)
  | 0, _ => .ok []
  | count + 1, pos => do
    reject (fileData.length < wrap (pos + offsetSize))
      (.error (.unexpectedEof (wrap (pos + offsetSize)) fileData.length))
    let addr ← readOffset fileData pos offsetSize
    let addrs ← superBlockAddresses fileData offsetSize count (pos + offsetSize)
    .ok (addr :: addrs)

def readSuperBlock (sbOffset ndblks nelmtsPerDblk startIndex : ℕ) : Run (List ChunkInfo) := do
  let fileData := ctx.fileData
  let sbHeaderSize := 4 + 1 + 1 + ctx.offsetSize
  reject (fileData.length < wrap (sbOffset + sbHeaderSize))
    (.error (.unexpectedEof (wrap (sbOffset + sbHeaderSize)) fileData.length))
  let signature ← slice fileData sbOffset (wrap (sbOffset + 4))
  reject (signature ≠ utf8Bytes "EASB")
    (.error (.chunkedReadError "invalid Extensible Array super block signature"))
  let addrs ← superBlockAddresses fileData ctx.offsetSize ndblks (sbOffset + sbHeaderSize)
  let (infos, _) ← readDataBlocks ctx (addrs.map (·, nelmtsPerDblk)) startIndex
  .ok infos

def readSuperBlocks : (blocks : List (ℕ × ℕ × ℕ)) → (index : ℕ) → Run (List ChunkInfo)
  | [], _ => .ok []
  | (addr, ndblks, nelmts) :: blocks, index => do
    let infos ← whenDefined ctx addr (readSuperBlock ctx addr ndblks nelmts index)
    let rest ← readSuperBlocks blocks (index + ndblks * nelmts)
    .ok (infos ++ rest)

/-! ### The index block -/

/-- The chunks of the super blocks whose addresses follow at `pos`, when `remaining` elements are
left and the next has the given number. -/
def readFurther (remaining pos index : ℕ) : Run (List ChunkInfo) := do
  let header := ctx.header
  let sbInfos ← superBlockSizes remaining (64 - header.superBlkMinNelmts) 0
    (wrap (header.minDblkNelmts * 2 ^ (header.superBlkMinNelmts - 1)))
  let (sbAddrs, _) ← readAddresses ctx.fileData ctx.offsetSize sbInfos.length pos
  readSuperBlocks ctx (sbAddrs.zip sbInfos) index

/-- The chunks behind the inline elements: those of the data blocks and super blocks whose
addresses follow at `pos`. -/
def readBlocks (pos : ℕ) : Run (List ChunkInfo) := do
  let header := ctx.header
  let dblkSizes ← directBlockSizes header.superBlkMinNelmts 0 header.minDblkNelmts
  let (dblkAddrs, pos) ← readAddresses ctx.fileData ctx.offsetSize dblkSizes.length pos
  let (direct, index) ← readDataBlocks ctx (dblkAddrs.zip dblkSizes) header.idxBlkElmts
  let totalInIbAndDirect := header.idxBlkElmts + dblkSizes.sum
  if header.numElements ≤ totalInIbAndDirect then .ok direct
  else do
    let rest ← readFurther ctx (header.numElements - totalInIbAndDirect) pos index
    .ok (direct ++ rest)

def readExtensibleArrayChunks (fileData : Bytes) (header : ExtensibleArrayHeader)
    (datasetDims chunkDimensions : List ℕ) (elementSize offsetSize : ℕ) : Run (List ChunkInfo) := do
  let counts ← numChunksPerDim datasetDims chunkDimensions
  let ctx : EaContext :=
    ⟨fileData, header, offsetSize, chunkDimensions.prod * elementSize, counts, chunkDimensions⟩
  let ibOffset := header.indexBlockAddress
  let ibHeaderSize := 4 + 1 + 1 + offsetSize
  reject (fileData.length < wrap (ibOffset + ibHeaderSize))
    (.error (.unexpectedEof (wrap (ibOffset + ibHeaderSize)) fileData.length))
  let ib ← sliceFrom fileData ibOffset
  let signature ← slice ib 0 4
  reject (signature ≠ utf8Bytes "EAIB")
    (.error (.chunkedReadError "invalid Extensible Array index block signature"))
  let (inline, pos) ← readElements ctx (min header.idxBlkElmts header.numElements) 0
    (ibOffset + ibHeaderSize)
  if header.numElements ≤ header.idxBlkElmts then .ok inline
  else do
    let rest ← readBlocks ctx pos
    .ok (inline ++ rest)

end ClawHdf5.Format
