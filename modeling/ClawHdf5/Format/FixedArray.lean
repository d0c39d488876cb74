import ClawHdf5.Format.ChunkRecord

/-!
# Fixed arrays

The index of a dataset whose number of chunks is fixed: a header and a data block with one
element per chunk. A data block of more than `2 ^ maxNelmtsBits` elements is divided into pages
of that many, each followed by a checksum, behind a bitmap that says which pages are in use.
-/

namespace ClawHdf5.Format

open Bytes Fallible RowMajor List

/-! ### Writing -/

/-- The number of elements in a page, as a power of two. -/
def fixedArrayMaxBits : ℕ := 10

/-- The client of an array: whether its elements are those of filtered chunks. -/
def clientId (hasFilters : Bool) : ℕ := if hasFilters then 1 else 0

/-- A length of four or eight bytes. -/
def writeLength (lengthSize value : ℕ) : Bytes :=
  if lengthSize = 4 then leBytes 4 value else leBytes 8 value

def fahdTotalSize (offsetSize lengthSize : ℕ) : ℕ :=
  4 + 1 + 1 + 1 + 1 + lengthSize + offsetSize + 4

def fahdBody (chunks : List WrittenChunk) (offsetSize lengthSize : ℕ) (hasFilters : Bool)
    (fadbAddress : ℕ) : Bytes :=
  utf8Bytes "FAHD" ++ leBytes 1 0 ++ leBytes 1 (clientId hasFilters) ++
    leBytes 1 (elementSize chunks offsetSize hasFilters) ++ leBytes 1 fixedArrayMaxBits ++
    writeLength lengthSize chunks.length ++ writeAddress offsetSize fadbAddress

/-- Mark page `p` as in use. The first page of a byte has its highest bit. -/
def setPageBit (bitmap : Bytes) (p : ℕ) : Bytes :=
  bitmap.modify (p / 8) (· ||| 1 <<< UInt8.ofNat (7 - p % 8))

/-- Which pages are in use: one bit per page. -/
def pageBitmap (npages : ℕ) : Bytes :=
  (range npages).foldl setPageBit (replicate ((npages + 7) / 8) 0)

/-- Page `p` of an array: its elements, padding, and the checksum. -/
def writePage (chunks : List WrittenChunk) (offsetSize : ℕ) (hasFilters : Bool) (p : ℕ) : Bytes :=
  let pageNelmts := 2 ^ fixedArrayMaxBits
  let elements := ((chunks.drop (p * pageNelmts)).take pageNelmts).flatMap
    (writeChunkElement offsetSize hasFilters (chunkSizeBytes chunks hasFilters))
  let page := elements ++
    replicate (pageNelmts * elementSize chunks offsetSize hasFilters - elements.length) 0
  page ++ checksum page

def fadbHead (offsetSize : ℕ) (hasFilters : Bool) (faBaseAddress : ℕ) : Bytes :=
  utf8Bytes "FADB" ++ leBytes 1 0 ++ leBytes 1 (clientId hasFilters) ++
    writeAddress offsetSize faBaseAddress

def fadb (chunks : List WrittenChunk) (offsetSize : ℕ) (hasFilters : Bool)
    (faBaseAddress : ℕ) : Bytes :=
  let pageNelmts := 2 ^ fixedArrayMaxBits
  let head := fadbHead offsetSize hasFilters faBaseAddress
  if chunks.length ≤ pageNelmts then
    let block := head ++ chunks.flatMap
      (writeChunkElement offsetSize hasFilters (chunkSizeBytes chunks hasFilters))
    block ++ checksum block
  else
    let npages := (chunks.length + pageNelmts - 1) / pageNelmts
    let bitmap := pageBitmap npages
    head ++ bitmap ++ checksum bitmap ++
      (range npages).flatMap (writePage chunks offsetSize hasFilters)

/-- A fixed array at `faBaseAddress`: the header and, behind it, the data block. -/
def buildFixedArrayAt (chunks : List WrittenChunk) (offsetSize lengthSize : ℕ)
    (hasFilters : Bool) (faBaseAddress : ℕ) : Bytes :=
  let fahd := fahdBody chunks offsetSize lengthSize hasFilters
    (faBaseAddress + fahdTotalSize offsetSize lengthSize)
  fahd ++ checksum fahd ++ fadb chunks offsetSize hasFilters faBaseAddress

/-! ### Reading -/

structure FixedArrayHeader where
  clientId : ℕ
  elementSize : ℕ
  maxNelmtsBits : ℕ
  numElements : ℕ
  dataBlockAddress : ℕ
  deriving DecidableEq

def FixedArrayHeader.parse (fileData : Bytes) (offset offsetSize lengthSize : ℕ) :
    Run FixedArrayHeader := do
  let minSize := 4 + 1 + 1 + 1 + 1 + lengthSize + offsetSize + 4
  reject (fileData.length < wrap (offset + minSize))
    (.error (.unexpectedEof (wrap (offset + minSize)) fileData.length))
  let d ← sliceFrom fileData offset
  let signature ← slice d 0 4
  reject (signature ≠ utf8Bytes "FAHD")
    (.error (.chunkedReadError "invalid Fixed Array header signature"))
  let version ← byteAt d 4
  reject (version ≠ 0)
    (.error (.chunkedReadError s!"unsupported Fixed Array header version: {version}"))
  let clientId ← byteAt d 5
  let elementSize ← byteAt d 6
  let maxNelmtsBits ← byteAt d 7
  let numElements ← readOffset d 8 lengthSize
  let dataBlockAddress ← readOffset d (8 + lengthSize) offsetSize
  .ok ⟨clientId, elementSize, maxNelmtsBits, numElements, dataBlockAddress⟩

/-- The element at `pos`: the address, size and filter mask of a chunk, or nothing when the chunk
is not allocated. -/
def parseFaElement (fileData : Bytes) (pos clientId offsetSize elementSize chunkByteSize : ℕ) :
    Run (Option (ℕ × ℕ × ℕ)) :=
  if clientId = 0 then do
    reject (fileData.length < wrap (pos + offsetSize))
      (.error (.unexpectedEof (wrap (pos + offsetSize)) fileData.length))
    if ← isUndefined fileData pos offsetSize then .ok none
    else do
      let address ← readOffset fileData pos offsetSize
      .ok (some (address, chunkByteSize % 2 ^ 32, 0))
  else do
    reject (elementSize < offsetSize + 4)
      (.error (.chunkedReadError "element_size too small for filtered element"))
    let sizeBytes := elementSize - offsetSize - 4
    reject (fileData.length < wrap (pos + elementSize))
      (.error (.unexpectedEof (wrap (pos + elementSize)) fileData.length))
    if ← isUndefined fileData pos offsetSize then .ok none
    else do
      let address ← readOffset fileData pos offsetSize
      let rest ← sliceFrom fileData (pos + offsetSize)
      let chunkSize ← readVariableLength rest sizeBytes
      let filterMask ← leAt fileData (pos + offsetSize + sizeBytes) 4
      .ok (some (address, chunkSize % 2 ^ 32, filterMask))

def elemAt (base elemStride idx : ℕ) : Run ℕ :=
  if base + idx * elemStride < 2 ^ 64 then .ok (base + idx * elemStride)
  else fail (.chunkedReadError "Fixed Array element offset overflow")

/-- The chunk that element `i`, at `pos`, describes. -/
def pushElement (fileData : Bytes) (header : FixedArrayHeader) (counts chunkDimensions : List ℕ)
    (chunkByteSize offsetSize i pos : ℕ) : Run (Option ChunkInfo) := do
  let found ← parseFaElement fileData pos header.clientId offsetSize header.elementSize
    chunkByteSize
  .ok (found.map fun (address, chunkSize, filterMask) =>
    ⟨chunkSize, filterMask, indexToChunkOffsets i counts chunkDimensions, address⟩)

def readFaPage (fileData : Bytes) (numElements pageNelmts bitmapStart pagesStart pageStride
    elemStride : ℕ) (element : ℕ → ℕ → Run (Option ChunkInfo)) (p : ℕ) : Run (List ChunkInfo) := do
  let pageFirst := p * pageNelmts
  let pageCount := min pageNelmts (numElements - pageFirst)
  let bitByte ← byteAt fileData (bitmapStart + p / 8)
  if bitByte.testBit (7 - p % 8) then do
    let pageOff ←
      if pagesStart + p * pageStride < 2 ^ 64 then .ok (pagesStart + p * pageStride)
      else fail (.chunkedReadError "Fixed Array page offset overflow")
    collectFound (fun e => do
      let pos ← elemAt pageOff elemStride e
      element (pageFirst + e) pos) (range pageCount)
  else .ok []

/-- The chunks of a data block that is divided into pages: the bitmap, its checksum and the pages
follow one another from `bitmapStart` on. -/
def readFaPages (fileData : Bytes) (numElements pageNelmts bitmapStart elemStride : ℕ)
    (element : ℕ → ℕ → Run (Option ChunkInfo)) : Run (List ChunkInfo) := do
  let npages := (numElements + pageNelmts - 1) / pageNelmts
  let bitmapSize := (npages + 7) / 8
  let pagesStart := bitmapStart + bitmapSize + 4
  reject (2 ^ 64 ≤ pageNelmts * elemStride + 4)
    (.error (.chunkedReadError "Fixed Array page offset overflow"))
  let pageStride := pageNelmts * elemStride + 4
  reject (fileData.length < bitmapStart + bitmapSize)
    (.error (.unexpectedEof (bitmapStart + bitmapSize) fileData.length))
  let pages ← (range npages).mapM
    (readFaPage fileData numElements pageNelmts bitmapStart pagesStart pageStride elemStride
      element)
  .ok pages.flatten

def readFixedArrayChunks (fileData : Bytes) (header : FixedArrayHeader)
    (datasetDims chunkDimensions : List ℕ) (elementSize offsetSize : ℕ) : Run (List ChunkInfo) := do
  let dbOffset := header.dataBlockAddress
  let dbHeaderSize := 4 + 1 + 1 + offsetSize
  reject (fileData.length < wrap (dbOffset + dbHeaderSize))
    (.error (.unexpectedEof (wrap (dbOffset + dbHeaderSize)) fileData.length))
  let d ← sliceFrom fileData dbOffset
  let signature ← slice d 0 4
  reject (signature ≠ utf8Bytes "FADB")
    (.error (.chunkedReadError "invalid Fixed Array data block signature"))
  let elementsStart := dbOffset + dbHeaderSize
  let numElements := header.numElements
  reject (fileData.length < numElements)
    (.error (.chunkedReadError "Fixed Array element count exceeds file size"))
  let elemStride := max header.elementSize offsetSize
  let counts ← numChunksPerDim datasetDims chunkDimensions
  let chunkByteSize := chunkDimensions.prod * elementSize
  let element := pushElement fileData header counts chunkDimensions chunkByteSize offsetSize
  reject (header.maxNelmtsBits ≥ 64)
    (.error (.chunkedReadError "Fixed Array max_nelmts_bits too large"))
  let pageNelmts := 2 ^ header.maxNelmtsBits
  if numElements ≤ pageNelmts then
    collectFound (fun i => do
      let pos ← elemAt elementsStart elemStride i
      element i pos) (range numElements)
  else readFaPages fileData numElements pageNelmts elementsStart elemStride element

/-! ### Reading an element back -/

theorem parseFaElement_of_standsAt {file : Bytes} {chunks : List WrittenChunk} {hasFilters : Bool}
    {pos chunkByteSize : ℕ} (hfile : file.length < 2 ^ 64) {chunk : WrittenChunk}
    (hchunk : chunk.Typed)
    (h : StandsAt file pos
      (writeChunkElement 8 hasFilters (chunkSizeBytes chunks hasFilters) chunk)) :
    parseFaElement file pos (clientId hasFilters) 8 (elementSize chunks 8 hasFilters)
        chunkByteSize =
      .ok (chunk.readBack hasFilters (chunkSizeBytes chunks hasFilters) chunkByteSize) := by
  have hle := h.le
  rw [length_writeChunkElement] at hle
  cases hasFilters with
  | false =>
    obtain ⟨hundef, haddress⟩ := unfilteredElement_of_standsAt hfile hchunk h
    have hle' : pos + 8 ≤ file.length := hle
    rw [parseFaElement, if_pos (by rfl), wrap_of_lt (by omega), reject_bind (not_lt.mpr hle'),
      hundef, haddress, ok_bind, WrittenChunk.readBack]
    simp only [decide_eq_true_iff, Bool.false_eq_true, if_false]
    split_ifs <;> rfl
  | true =>
    obtain ⟨hundef, haddress, hslice, hsize, hmask⟩ :=
      filteredElement_of_standsAt hfile hchunk (chunkSizeBytes_le chunks true) h
    set w := chunkSizeBytes chunks true
    have helem : elementSize chunks 8 true = 8 + w + 4 := rfl
    rw [helem] at hle
    rw [parseFaElement, if_neg (by decide), helem]
    rw [reject_bind (by omega), wrap_of_lt (by omega),
      reject_bind (not_lt.mpr hle), hundef, ok_bind, haddress, ok_bind, hslice,
      ok_bind, show 8 + w + 4 - 8 - 4 = w by omega, hsize, hmask,
      WrittenChunk.readBack]
    simp only [decide_eq_true_iff]
    split_ifs <;> rfl

theorem elementSize_le (chunks : List WrittenChunk) (hasFilters : Bool) :
    8 ≤ elementSize chunks 8 hasFilters ∧ elementSize chunks 8 hasFilters ≤ 20 := by
  have hle := chunkSizeBytes_le chunks hasFilters
  unfold elementSize
  split_ifs <;> omega

/-! ### Which pages are in use -/

@[simp] theorem length_setPageBit (bitmap : Bytes) (p : ℕ) :
    (setPageBit bitmap p).length = bitmap.length := length_modify _ _ _

def PageInUse (bitmap : Bytes) (p : ℕ) : Prop :=
  ∃ byte, bitmap[p / 8]? = some byte ∧ byte.toNat.testBit (7 - p % 8) = true

theorem testBit_or_pageBit (byte : UInt8) (p i : ℕ) :
    (byte ||| 1 <<< UInt8.ofNat (7 - p % 8)).toNat.testBit i =
      (byte.toNat.testBit i || decide (7 - p % 8 = i)) := by
  have hbit : ∀ k : Fin 8, (1 <<< UInt8.ofNat (7 - k) : UInt8).toNat = 2 ^ (7 - k.val) := by decide
  rw [UInt8.toNat_or, hbit ⟨p % 8, Nat.mod_lt _ (by decide)⟩, Nat.testBit_or, Nat.testBit_two_pow]

/-- Marking a page leaves the marked pages marked. -/
theorem pageInUse_setPageBit {bitmap : Bytes} {p q : ℕ} (hp : p / 8 < bitmap.length)
    (h : p = q ∨ PageInUse bitmap q) : PageInUse (setPageBit bitmap p) q := by
  obtain ⟨byte, hbyte⟩ : ∃ byte, bitmap[q / 8]? = some byte := by
    rcases h with rfl | ⟨byte, hbyte, -⟩
    · exact ⟨_, getElem?_eq_getElem hp⟩
    · exact ⟨byte, hbyte⟩
  have hkept : p = q ∨ byte.toNat.testBit (7 - q % 8) = true := by
    refine h.imp_right fun ⟨byte', hbyte', hbit⟩ => ?_
    rwa [Option.some.inj (hbyte.symm.trans hbyte')]
  refine ⟨_, by rw [setPageBit, getElem?_modify, hbyte]; rfl, ?_⟩
  split_ifs with hsame
  · rw [testBit_or_pageBit]
    rcases hkept with rfl | hbit
    · rw [decide_eq_true rfl, Bool.or_true]
    · rw [hbit, Bool.true_or]
  · exact hkept.resolve_left fun heq => hsame (heq ▸ rfl)

theorem pageInUse_foldl {pages : List ℕ} {bitmap : Bytes} {q : ℕ}
    (hpages : ∀ p ∈ pages, p / 8 < bitmap.length) (h : q ∈ pages ∨ PageInUse bitmap q) :
    PageInUse (pages.foldl setPageBit bitmap) q := by
  induction pages generalizing bitmap with
  | nil => simpa using h
  | cons p pages ih =>
    obtain ⟨hp, hpages⟩ := forall_mem_cons.mp hpages
    refine ih (by simpa using hpages) ?_
    rcases h with hmem | huse
    · rcases mem_cons.mp hmem with rfl | hmem
      · exact .inr (pageInUse_setPageBit hp (.inl rfl))
      · exact .inl hmem
    · exact .inr (pageInUse_setPageBit hp (.inr huse))

theorem pageInUse_pageBitmap {npages p : ℕ} (hp : p < npages) :
    PageInUse (pageBitmap npages) p := by
  refine pageInUse_foldl (fun q hq => ?_) (.inl (mem_range.mpr hp))
  rw [length_replicate]
  have := mem_range.mp hq
  omega

theorem length_pageBitmap (npages : ℕ) : (pageBitmap npages).length = (npages + 7) / 8 := by
  have hfold : ∀ (pages : List ℕ) (bitmap : Bytes),
      (pages.foldl setPageBit bitmap).length = bitmap.length := by
    intro pages
    induction pages with
    | nil => exact fun _ => rfl
    | cons p pages ih => exact fun bitmap => (ih _).trans (length_setPageBit bitmap p)
  rw [pageBitmap, hfold, length_replicate]

/-! ### Reading an array back -/

/-- A fixed array in a file, with the dataset it is the index of. Its chunks are read back from
their elements unchanged. -/
structure StoredFixedArray where
  file : Bytes
  base : ℕ
  chunks : List WrittenChunk
  hasFilters : Bool
  datasetDims : List ℕ
  chunkDims : List ℕ
  elemSize : ℕ
  length_file : file.length < 2 ^ 64
  chunkDims_ne_zero : ∀ n ∈ chunkDims, n ≠ 0
  rank_eq : datasetDims.length = chunkDims.length
  fits : ∀ chunk ∈ chunks, chunk.Fits hasFilters (chunkSizeBytes chunks hasFilters)
    (chunkDims.prod * elemSize)
  standsAt : StandsAt file base (buildFixedArrayAt chunks 8 8 hasFilters base)

namespace StoredFixedArray

variable (a : StoredFixedArray)

abbrev width : ℕ := elementSize a.chunks 8 a.hasFilters

/-- The elements of a run of chunks. -/
abbrev elements (run : List WrittenChunk) : Bytes :=
  run.flatMap (writeChunkElement 8 a.hasFilters (chunkSizeBytes a.chunks a.hasFilters))

abbrev npages : ℕ := (a.chunks.length + 2 ^ fixedArrayMaxBits - 1) / 2 ^ fixedArrayMaxBits

abbrev header : FixedArrayHeader :=
  ⟨clientId a.hasFilters, a.width, fixedArrayMaxBits, a.chunks.length, a.base + fahdTotalSize 8 8⟩

/-- The chunk that is read back as number `i`. -/
abbrev info (i : ℕ) (chunk : WrittenChunk) : ChunkInfo :=
  chunk.info (indexToChunkOffsets i (chunkCounts a.datasetDims a.chunkDims) a.chunkDims)

/-- The reader of element `i` at a position. -/
abbrev read (i pos : ℕ) : Run (Option ChunkInfo) :=
  pushElement a.file a.header (chunkCounts a.datasetDims a.chunkDims) a.chunkDims
    (a.chunkDims.prod * a.elemSize) 8 i pos

theorem length_fahdBody (address : ℕ) :
    (fahdBody a.chunks 8 8 a.hasFilters address).length = 24 := by
  simp only [fahdBody, writeLength]
  rfl

theorem length_elements (run : List WrittenChunk) :
    (a.elements run).length = run.length * a.width :=
  Overwrite.length_slots (length_writeChunkElement a.chunks a.hasFilters) run

theorem length_writePage (p : ℕ) :
    (writePage a.chunks 8 a.hasFilters p).length = 2 ^ fixedArrayMaxBits * a.width + 4 := by
  have hle := Nat.mul_le_mul_right a.width
    (length_take_le (2 ^ fixedArrayMaxBits) (a.chunks.drop (p * 2 ^ fixedArrayMaxBits)))
  rw [← a.length_elements] at hle
  simp only [writePage, length_append, length_replicate, length_checksum]
  rw [← width, ← elements]
  omega

/-- A data block has room for its elements. -/
theorem length_le_length_fadb : a.chunks.length ≤ (fadb a.chunks 8 a.hasFilters a.base).length := by
  obtain ⟨hwidth, -⟩ : 8 ≤ a.width ∧ a.width ≤ 20 := elementSize_le a.chunks a.hasFilters
  unfold fadb
  dsimp only
  split_ifs with hpaged
  · have hle := Nat.mul_le_mul_left a.chunks.length (le_trans (by decide : 1 ≤ 8) hwidth)
    simp only [length_append, a.length_elements]
    omega
  · have hpages : a.chunks.length ≤ a.npages * 2 ^ fixedArrayMaxBits := by
      simp only [npages, fixedArrayMaxBits]
      omega
    rw [← npages]
    have hle := Nat.mul_le_mul_left a.npages
      (Nat.le_mul_of_pos_right (2 ^ fixedArrayMaxBits) (by omega : 0 < a.width))
    simp only [length_append, Overwrite.length_slots a.length_writePage, length_range, mul_add]
    omega

theorem parse_eq : FixedArrayHeader.parse a.file a.base 8 8 = .ok a.header := by
  have hfile := a.length_file
  have hclient : clientId a.hasFilters < 256 := by cases a.hasFilters <;> decide
  obtain ⟨-, helem⟩ := elementSize_le a.chunks a.hasFilters
  obtain ⟨hhead, hblock⟩ := standsAt_append.mp a.standsAt
  have hle := hhead.le
  have hblockLe := hblock.le
  obtain ⟨hslice, hstart⟩ := sliceFrom_of_standsAt hhead
  simp only [length_append, length_checksum, length_fahdBody] at hle
  have hcountLt : a.chunks.length < 256 ^ 8 := by
    have := a.length_le_length_fadb
    omega
  have haddressLt : a.base + fahdTotalSize 8 8 < 256 ^ 8 := by
    simp only [fahdTotalSize]
    omega
  have hsigLength : (utf8Bytes "FAHD").length = 4 := rfl
  simp only [fahdBody, writeLength, writeAddress, standsAt_append, length_append, length_leBytes,
    hsigLength, Nat.reduceEqDiff, if_false] at hstart
  obtain ⟨⟨⟨⟨⟨⟨⟨hsig, hversion⟩, hclientAt⟩, helemAt⟩, hbits⟩, hcount⟩, haddress⟩, -⟩ := hstart
  have hsigAt : slice (a.file.drop a.base) 0 4 = .ok (utf8Bytes "FAHD") := slice_of_standsAt hsig
  simp only [FixedArrayHeader.parse]
  rw [wrap_of_lt (by omega), reject_bind (by omega), hslice, ok_bind, hsigAt, ok_bind,
    reject_bind (not_not.mpr rfl), byteAt_bind hversion (by decide), reject_bind (not_not.mpr rfl),
    byteAt_bind hclientAt hclient, byteAt_bind helemAt (by omega), byteAt_bind hbits (by decide),
    readOffset_of_standsAt hcount hcountLt (by decide) (by decide), ok_bind,
    readOffset_of_standsAt haddress haddressLt (by decide) (by decide), ok_bind]

/-- Element `e` of a run of elements that starts at `start` is read back. -/
theorem read_of_standsAt {run : List WrittenChunk} {start e i : ℕ} {chunk : WrittenChunk}
    (hchunk : chunk ∈ a.chunks) (h : StandsAt a.file start (a.elements run))
    (he : run[e]? = some chunk) :
    (elemAt start a.width e >>= a.read i) = .ok (some (a.info i chunk)) := by
  have hfile := a.length_file
  have hfits := a.fits chunk hchunk
  have hslot := h.slot (length_writeChunkElement a.chunks a.hasFilters) he
  rw [← width] at hslot
  have hle := hslot.le
  rw [elemAt, if_pos (by omega), ok_bind, read, pushElement]
  rw [parseFaElement_of_standsAt a.length_file hfits.typed hslot, hfits.readBack_eq]
  rfl

theorem readFaPage_eq {bitmapStart pagesStart p : ℕ} {bitmap : Bytes}
    (hbitmap : StandsAt a.file bitmapStart bitmap) (huse : PageInUse bitmap p)
    (h : StandsAt a.file (pagesStart + p * (2 ^ fixedArrayMaxBits * a.width + 4))
      (writePage a.chunks 8 a.hasFilters p)) :
    readFaPage a.file a.chunks.length (2 ^ fixedArrayMaxBits) bitmapStart pagesStart
        (2 ^ fixedArrayMaxBits * a.width + 4) a.width a.read p =
      .ok (((range (min (2 ^ fixedArrayMaxBits) (a.chunks.length - p * 2 ^ fixedArrayMaxBits))).map
            (p * 2 ^ fixedArrayMaxBits + ·)).filterMap
        fun i => a.chunks[i]?.map (a.info i)) := by
  have hfile := a.length_file
  obtain ⟨byte, hbyte, hbit⟩ := huse
  have hbyteAt : byteAt a.file (bitmapStart + p / 8) = .ok byte.toNat := by
    rw [byteAt, index_eq_ok.mpr ((hbitmap.getElem?_add (lt_of_getElem? hbyte)).trans
      hbyte)]
    rfl
  have hle := h.le
  -- the elements are the first part of the page
  rw [writePage] at h
  have helements := (standsAt_append.mp (standsAt_append.mp h).1).1
  simp only [readFaPage]
  rw [hbyteAt, ok_bind, if_pos hbit, if_pos (by omega), filterMap_map]
  refine collectFound_eq fun e he => ?_
  rw [mem_range, Nat.lt_min] at he
  have hlt : p * 2 ^ fixedArrayMaxBits + e < a.chunks.length := by omega
  rw [Function.comp_apply, getElem?_eq_getElem hlt]
  refine a.read_of_standsAt (getElem_mem hlt) helements ?_
  rw [getElem?_take_of_lt he.1, getElem?_drop, getElem?_eq_getElem hlt]

theorem length_fadbHead : (fadbHead 8 a.hasFilters a.base).length = 14 := by
  simp only [fadbHead]
  rfl

theorem fadbHead_standsAt {pos : ℕ}
    (h : StandsAt a.file pos (fadb a.chunks 8 a.hasFilters a.base)) :
    StandsAt a.file pos (fadbHead 8 a.hasFilters a.base) := by
  unfold fadb at h
  dsimp only at h
  split_ifs at h
  · exact (standsAt_append.mp (standsAt_append.mp h).1).1
  · exact (standsAt_append.mp (standsAt_append.mp (standsAt_append.mp h).1).1).1

abbrev infos : List ChunkInfo :=
  gridInfos (chunkCounts a.datasetDims a.chunkDims) a.chunkDims a.chunks

/-- Pages behind their bitmap are read back. -/
theorem readFaPages_eq {start : ℕ} (hbitmap : StandsAt a.file start (pageBitmap a.npages))
    (hpages : StandsAt a.file (start + (a.npages + 7) / 8 + 4)
      ((range a.npages).flatMap (writePage a.chunks 8 a.hasFilters))) :
    readFaPages a.file a.chunks.length (2 ^ fixedArrayMaxBits) start a.width a.read =
      .ok a.infos := by
  obtain ⟨-, hwidth⟩ : 8 ≤ a.width ∧ a.width ≤ 20 := elementSize_le a.chunks a.hasFilters
  have hle := hbitmap.le
  rw [length_pageBitmap] at hle
  have hread := mapM_eq fun p (hp : p ∈ range a.npages) =>
    a.readFaPage_eq hbitmap (pageInUse_pageBitmap (mem_range.mp hp))
      (hpages.slot a.length_writePage (getElem?_range (mem_range.mp hp)))
  simp only [readFaPages]
  rw [← npages, reject_bind (by simp only [fixedArrayMaxBits]; omega),
    reject_bind (by omega), hread, ok_bind]
  -- the pages' elements are those of the array, in order
  rw [← flatMap_def, ← filterMap_flatMap, flatMap_rows, min_eq_left,
    filterMap_getElem?_range, infos, gridInfos]
  simp only [npages, fixedArrayMaxBits]
  omega

/-- An array is read back as the chunks it was built from. -/
theorem read_eq : readFixedArrayChunks a.file a.header a.datasetDims a.chunkDims a.elemSize 8 =
    .ok a.infos := by
  have hfile := a.length_file
  have hcount := a.length_le_length_fadb
  have hblock := (standsAt_append.mp a.standsAt).2
  rw [length_append, length_fahdBody, length_checksum] at hblock
  have hle := hblock.le
  have hhead := a.fadbHead_standsAt hblock
  have hheadLe := hhead.le
  rw [length_fadbHead] at hheadLe
  obtain ⟨hslice, hstart⟩ := sliceFrom_of_standsAt hhead
  have hsig : slice (a.file.drop (a.base + (24 + 4))) 0 4 = .ok (utf8Bytes "FADB") := by
    simp only [fadbHead, standsAt_append] at hstart
    exact slice_of_standsAt hstart.1.1.1
  have hmax : max a.width 8 = a.width := max_eq_left (elementSize_le a.chunks a.hasFilters).1
  have haddress : fahdTotalSize 8 8 = 24 + 4 := rfl
  simp only [readFixedArrayChunks, haddress, hmax]
  rw [wrap_of_lt (by omega), reject_bind (by omega), hslice, ok_bind, hsig, ok_bind,
    reject_bind (not_not.mpr rfl), reject_bind (by omega),
    numChunksPerDim_eq a.chunkDims_ne_zero a.rank_eq, ok_bind]
  unfold fadb at hblock
  dsimp only at hblock
  split_ifs at hblock with hpaged
  · -- one run of elements behind the head
    have helements := (standsAt_append.mp (standsAt_append.mp hblock).1).2
    rw [if_pos hpaged, infos, gridInfos, ← filterMap_getElem?_range]
    refine collectFound_eq fun i hi => ?_
    have hlt := mem_range.mp hi
    rw [getElem?_eq_getElem hlt, Option.map_some]
    exact a.read_of_standsAt (getElem_mem hlt) helements (getElem?_eq_getElem hlt)
  · obtain ⟨hbitmap, hpages⟩ := standsAt_append.mp hblock
    have hbitmapAt := (standsAt_append.mp (standsAt_append.mp hbitmap).1).2
    simp only [length_append, length_fadbHead, length_pageBitmap, length_checksum,
      ← add_assoc] at hpages hbitmapAt
    rw [if_neg hpaged]
    exact a.readFaPages_eq hbitmapAt hpages

end StoredFixedArray

end ClawHdf5.Format
