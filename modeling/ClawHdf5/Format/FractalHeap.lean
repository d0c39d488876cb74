import ClawHdf5.Format.ExtensibleArray

/-!
# Reading fractal heaps

A fractal heap holds objects of any length in one space of heap offsets. The space is divided into
direct blocks, whose sizes follow a doubling table: the rows of the table have equally many blocks,
the first two rows of the starting size and each further row of twice the size before. A heap of
one block has that block as its root. Otherwise the root is an indirect block, which lists the
addresses of the blocks row by row; where the blocks of a row would be larger than a direct block
may be, it lists further indirect blocks.
-/

namespace ClawHdf5.Format

open Bytes Fallible

structure FractalHeapHeader where
  heapIdLength : ℕ
  ioFilterEncodedLength : ℕ
  maxManagedObjectSize : ℕ
  tableWidth : ℕ
  startingBlockSize : ℕ
  maxDirectBlockSize : ℕ
  maxHeapSize : ℕ
  startingRowOfIndirectBlocks : ℕ
  rootBlockAddress : ℕ
  currentRowsInRootIndirectBlock : ℕ
  managedObjectsCount : ℕ
  deriving DecidableEq

namespace FractalHeapHeader

def parse (fileData : Bytes) (offset offsetSize lengthSize : ℕ) : Run FractalHeapHeader := do
  ensureLen fileData offset 5
  let signature ← slice fileData offset (offset + 4)
  reject (signature ≠ utf8Bytes "FRHP") (.error .invalidFractalHeapSignature)
  let version ← byteAt fileData (offset + 4)
  reject (version ≠ 0) (.error (.invalidFractalHeapVersion version))
  let heapIdLength ← readField fileData (offset + 5) 2
  let ioFilterEncodedLength ← readField fileData (offset + 7) 2
  let _flags ← readField fileData (offset + 9) 1
  let maxManagedObjectSize ← readField fileData (offset + 10) 4
  -- the fields of huge objects, free space and allocation are not used
  let skipSize := 5 * lengthSize + 2 * offsetSize
  ensureLen fileData (offset + 14) skipSize
  let pos := offset + 14 + skipSize
  let managedObjectsCount ← readOffset fileData pos lengthSize
  let pos := pos + 5 * lengthSize
  let tableWidth ← readField fileData pos 2
  let startingBlockSize ← readOffset fileData (pos + 2) lengthSize
  let maxDirectBlockSize ← readOffset fileData (pos + 2 + lengthSize) lengthSize
  let pos := pos + 2 + 2 * lengthSize
  let maxHeapSize ← readField fileData pos 2
  let startingRowOfIndirectBlocks ← readField fileData (pos + 2) 2
  let rootBlockAddress ← readOffset fileData (pos + 4) offsetSize
  let currentRowsInRootIndirectBlock ← readField fileData (pos + 4 + offsetSize) 2
  let pos := pos + 6 + offsetSize
  let pos := if 0 < ioFilterEncodedLength then pos + lengthSize + 4 else pos
  ensureLen fileData pos 4
  verifyChecksum fileData offset pos
  .ok ⟨heapIdLength, ioFilterEncodedLength, maxManagedObjectSize, tableWidth, startingBlockSize,
    maxDirectBlockSize, maxHeapSize, startingRowOfIndirectBlocks, rootBlockAddress,
    currentRowsInRootIndirectBlock, managedObjectsCount⟩

/-- The heap offset and the length that an identifier packs: the offset in the low `maxHeapSize`
bits behind the first byte, the length in the bits above. -/
def decodeManagedId (header : FractalHeapHeader) : Bytes → Run (ℕ × ℕ)
  | [] => fail (.unexpectedEof 1 0)
  | first :: payload => do
    let idType := first.toNat / 64
    reject (idType ≠ 0) (.error (.invalidHeapIdType idType))
    let combined := ofLeBytes (payload.take 8)
    let offsetBits := header.maxHeapSize
    let lengthBits := payload.length * 8 - offsetBits
    -- a shift by 64 or more bits is taken modulo 64
    let length :=
      if lengthBits = 0 then 0 else combined / 2 ^ (offsetBits % 64) % 2 ^ min lengthBits 64
    .ok (combined % 2 ^ min offsetBits 64, length)

/-! ### The doubling table -/

def blockSizeForRow (header : FractalHeapHeader) (row : ℕ) : ℕ :=
  if row ≤ 1 then header.startingBlockSize
  else
    let shift := (row - 1) % 2 ^ 32
    let shifted := if shift < 64 then 2 ^ shift else 2 ^ 64 - 1
    min (header.startingBlockSize * shifted) (2 ^ 64 - 1)

def maxDirectRows (header : FractalHeapHeader) : ℕ :=
  if header.startingBlockSize = 0 then 2 ^ 64 - 1
  else Nat.log2 (max (header.maxDirectBlockSize / header.startingBlockSize) 1) + 2

def indirectBlockHeapSize (header : FractalHeapHeader) (nrows : ℕ) : ℕ :=
  (List.range nrows).foldl (fun total row =>
    min (total + min (header.blockSizeForRow row * header.tableWidth) (2 ^ 64 - 1)) (2 ^ 64 - 1)) 0

/-! ### Reading objects -/

/-- The bytes at a heap offset, out of the direct block that covers it. -/
def readFromDirectBlock (fileData : Bytes)
    (blockAddr blockHeapOffset targetOffset length : ℕ) : Run Bytes := do
  reject (targetOffset < blockHeapOffset) (.error (.unexpectedEof blockHeapOffset targetOffset))
  let pos := blockAddr + (targetOffset - blockHeapOffset)
  reject (2 ^ 64 ≤ pos) (.error (.unexpectedEof (2 ^ 64 - 1) fileData.length))
  ensureLen fileData pos length
  slice fileData pos (pos + length)

/-- Go through the entries of a row: `visit` the child whose space, of `space` bytes each, covers
the target, or go on with `next` behind the row. -/
def scanColumns (fileData : Bytes) (offsetSize targetOffset stride space : ℕ)
    (visit : ℕ → ℕ → Run Bytes) (next : ℕ → ℕ → Run Bytes) : ℕ → ℕ → ℕ → Run Bytes
  | 0, pos, heapOffset => next pos heapOffset
  | columns + 1, pos, heapOffset => do
    let childAddr ← readOffset fileData pos offsetSize
    let blockEnd := wrap (heapOffset + space)
    if isUndefinedAddr childAddr offsetSize = false ∧ heapOffset ≤ targetOffset ∧
        targetOffset < blockEnd then
      visit childAddr heapOffset
    else
      scanColumns fileData offsetSize targetOffset stride space visit next columns (pos + stride)
        blockEnd

/-- Go through the rows of an indirect block. A child that is an indirect block itself is read by
`descend`. -/
def scanRows (header : FractalHeapHeader) (fileData : Bytes) (offsetSize targetOffset length : ℕ)
    (descend : ℕ → ℕ → ℕ → Run Bytes) : List ℕ → ℕ → ℕ → Run Bytes
  | [], _, _ => fail (.unexpectedEof (wrap (targetOffset + length)) fileData.length)
  | row :: rows, pos, heapOffset =>
    let next := scanRows header fileData offsetSize targetOffset length descend rows
    let blockSize := header.blockSizeForRow row
    if blockSize ≤ header.maxDirectBlockSize then
      let stride := if 0 < header.ioFilterEncodedLength then offsetSize + 4 else offsetSize
      scanColumns fileData offsetSize targetOffset stride blockSize
        (fun childAddr childOffset =>
          readFromDirectBlock fileData childAddr childOffset targetOffset length)
        next header.tableWidth pos heapOffset
    else
      let childRows := wrap (row + 2 ^ 64 - header.maxDirectRows + 1)
      scanColumns fileData offsetSize targetOffset offsetSize
        (header.indirectBlockHeapSize childRows)
        (fun childAddr childOffset => descend childAddr (childRows % 2 ^ 16) childOffset)
        next header.tableWidth pos heapOffset

def readFromIndirectBlock (header : FractalHeapHeader) (fileData : Bytes)
    (offsetSize targetOffset length : ℕ) : ℕ → ℕ → ℕ → ℕ → Run Bytes
  | 0, _, _, _ =>
    fail (.chunkedReadError "fractal heap: maximum recursion depth exceeded")
  | depth + 1, iblockAddr, nrows, iblockHeapOffset => do
    ensureLen fileData iblockAddr 4
    let signature ← slice fileData iblockAddr (iblockAddr + 4)
    reject (signature ≠ utf8Bytes "FHIB") (.error .invalidFractalHeapSignature)
    let blockOffsetBytes := (header.maxHeapSize + 7) / 8
    scanRows header fileData offsetSize targetOffset length
      (readFromIndirectBlock header fileData offsetSize targetOffset length depth)
      (List.range nrows) (iblockAddr + (5 + offsetSize + blockOffsetBytes)) iblockHeapOffset

def readManagedObject (header : FractalHeapHeader) (fileData idBytes : Bytes) (offsetSize : ℕ) :
    Run Bytes := do
  let (heapOffset, objLen) ← header.decodeManagedId idBytes
  reject (isUndefinedAddr header.rootBlockAddress offsetSize = true)
    (.error (.unexpectedEof 1 0))
  if header.currentRowsInRootIndirectBlock = 0 then
    readFromDirectBlock fileData header.rootBlockAddress 0 heapOffset objLen
  else
    readFromIndirectBlock header fileData offsetSize heapOffset objLen 64 header.rootBlockAddress
      header.currentRowsInRootIndirectBlock 0

/-- An object is read out of the block that holds it at its place. -/
theorem readFromDirectBlock_of_standsAt {file obj : Bytes} {blockAddr blockOffset target : ℕ}
    (hfile : file.length < 2 ^ 64) (hle : blockOffset ≤ target)
    (h : StandsAt file (blockAddr + (target - blockOffset)) obj) :
    readFromDirectBlock file blockAddr blockOffset target obj.length = .ok obj := by
  have hend := h.le
  rw [readFromDirectBlock, reject_bind (not_lt.mpr hle)]
  rw [reject_bind (by omega), ensureLen_bind hend (by omega), slice_of_standsAt h]

/-! ### The length of what is read -/

section

variable {header : FractalHeapHeader} {file : Bytes} {length : ℕ}

theorem length_of_readFromDirectBlock {blockAddr blockOffset target : ℕ} {obj : Bytes}
    (h : readFromDirectBlock file blockAddr blockOffset target length = .ok obj) :
    obj.length = length := by
  simp only [readFromDirectBlock, bind_ok_iff] at h
  obtain ⟨-, -, -, -, -, -, hslice⟩ := h
  rw [slice] at hslice
  split_ifs at hslice with hinside
  rw [← Except.ok.inj hslice, List.length_take, List.length_drop]
  omega

/-- Going through a row ends in a child or behind the row. -/
theorem scanColumns_induction {P : Bytes → Prop} {offsetSize target stride space : ℕ}
    {visit next : ℕ → ℕ → Run Bytes} (hvisit : ∀ a o obj, visit a o = .ok obj → P obj)
    (hnext : ∀ p o obj, next p o = .ok obj → P obj) {columns pos heapOffset : ℕ} {obj : Bytes}
    (h : scanColumns file offsetSize target stride space visit next columns pos heapOffset =
      .ok obj) : P obj := by
  induction columns generalizing pos heapOffset with
  | zero => exact hnext _ _ _ h
  | succ columns ih =>
    rw [scanColumns, bind_ok_iff] at h
    obtain ⟨childAddr, -, h⟩ := h
    dsimp only at h
    split_ifs at h
    · exact hvisit _ _ _ h
    · exact ih h

theorem length_of_scanRows {offsetSize target : ℕ} {descend : ℕ → ℕ → ℕ → Run Bytes}
    (hdescend : ∀ a n o obj, descend a n o = .ok obj → obj.length = length) {rows : List ℕ}
    {pos heapOffset : ℕ} {obj : Bytes}
    (h : scanRows header file offsetSize target length descend rows pos heapOffset = .ok obj) :
    obj.length = length := by
  induction rows generalizing pos heapOffset obj with
  | nil => cases h
  | cons row rows ih =>
    rw [scanRows] at h
    by_cases hdirect : header.blockSizeForRow row ≤ header.maxDirectBlockSize
    · rw [if_pos hdirect] at h
      exact scanColumns_induction (fun _ _ _ hobj => length_of_readFromDirectBlock hobj)
        (fun _ _ _ hobj => ih hobj) h
    · rw [if_neg hdirect] at h
      exact scanColumns_induction (fun _ _ _ hobj => hdescend _ _ _ _ hobj)
        (fun _ _ _ hobj => ih hobj) h

theorem length_of_readFromIndirectBlock {offsetSize target depth addr nrows blockOffset : ℕ}
    {obj : Bytes}
    (h : readFromIndirectBlock header file offsetSize target length depth addr nrows blockOffset =
      .ok obj) : obj.length = length := by
  induction depth generalizing addr nrows blockOffset obj with
  | zero => cases h
  | succ depth ih =>
    simp only [readFromIndirectBlock, bind_ok_iff] at h
    obtain ⟨-, -, -, -, -, -, h⟩ := h
    exact length_of_scanRows (fun _ _ _ _ hobj => ih hobj) h

theorem length_of_readManagedObject {id obj : Bytes} {offsetSize : ℕ}
    (h : header.readManagedObject file id offsetSize = .ok obj) :
    ∃ offset, header.decodeManagedId id = .ok (offset, obj.length) := by
  rw [readManagedObject, bind_ok_iff] at h
  obtain ⟨⟨offset, objLen⟩, hdecode, h⟩ := h
  rw [bind_ok_iff] at h
  obtain ⟨-, -, h⟩ := h
  refine ⟨offset, ?_⟩
  rw [hdecode]
  split_ifs at h
  · rw [length_of_readFromDirectBlock h]
  · rw [length_of_readFromIndirectBlock h]

/-- The length in an identifier is below the power of two of its bits. -/
theorem decodeManagedId_lt {id : Bytes} {offset : ℕ}
    (h : header.decodeManagedId id = .ok (offset, length)) :
    length < 2 ^ ((id.length - 1) * 8 - header.maxHeapSize) := by
  cases id with
  | nil => cases h
  | cons first payload =>
    simp only [decodeManagedId, bind_ok_iff] at h
    obtain ⟨-, -, -, rfl⟩ := h
    split_ifs with hbits
    · exact Nat.two_pow_pos _
    · exact (Nat.mod_lt _ (Nat.two_pow_pos _)).trans_le
        (Nat.pow_le_pow_right two_pos (min_le_left _ _))

end

/-! ### Going through a row -/

section

variable {file : Bytes} {target space pos heapOffset columns i : ℕ} {address : ℕ → ℕ}
  {visit next : ℕ → ℕ → Run Bytes}

/-- The first blocks of a row are passed over if their space ends before the target. -/
theorem scanColumns_skip (hentry : ∀ j < i, readOffset file (pos + 8 * j) 8 = .ok (address j))
    {n : ℕ} (htarget : heapOffset + i * space ≤ target) (hlt : target < 2 ^ 64) :
    scanColumns file 8 target 8 space visit next (i + n) pos heapOffset =
      scanColumns file 8 target 8 space visit next n (pos + 8 * i) (heapOffset + i * space) := by
  induction i generalizing n with
  | zero => simp
  | succ i ih =>
    have hspace : heapOffset + (i + 1) * space = heapOffset + i * space + space := by
      rw [Nat.succ_mul, add_assoc]
    rw [hspace] at htarget ⊢
    rw [Nat.succ_add_eq_add_succ, ih (fun j hj => hentry j (by omega)) (by omega), scanColumns,
      hentry i (Nat.lt_succ_self i), wrap_of_lt (by omega)]
    exact if_neg fun h => absurd h.2.2 (by omega)

/-- The block of a row that covers the target is the one that is read. -/
theorem scanColumns_find (hentry : ∀ j < columns, readOffset file (pos + 8 * j) 8 = .ok (address j))
    (hi : i < columns) (haddress : isUndefinedAddr (address i) 8 = false)
    (hlo : heapOffset + i * space ≤ target) (hhi : target < heapOffset + (i + 1) * space)
    (hlt : heapOffset + (i + 1) * space < 2 ^ 64) :
    scanColumns file 8 target 8 space visit next columns pos heapOffset =
      visit (address i) (heapOffset + i * space) := by
  obtain ⟨columns, rfl⟩ := Nat.exists_eq_add_of_lt hi
  rw [Nat.succ_mul, ← add_assoc] at hhi hlt
  rw [add_assoc, scanColumns_skip (fun j hj => hentry j (by omega)) hlo (by omega),
    scanColumns, hentry i hi, wrap_of_lt hlt]
  exact if_pos ⟨haddress, hlo, hhi⟩

end

end FractalHeapHeader

end ClawHdf5.Format
