import ClawHdf5.Format.FractalHeap
import ClawHdf5.Math.Cells

/-!
# Writing fractal heaps

The writer puts all objects into one direct block when they fit the largest one. Otherwise it
packs them, in their order, into the blocks of a doubling table: an object goes behind the last
one if the block has room left, else into the next block of the table. A new block takes its first
object whatever its length, and a block is cut to its size when it is written.

Addresses and lengths have eight bytes.
-/

namespace ClawHdf5.Format

open Bytes Fallible Overwrite Cells MachineInt List

/-! ### Identifiers and headers -/

/-- The identifier of an object: its heap offset in the low `maxHeapSize` bits behind the first
byte, and its length above, as far as there are bytes. -/
def encodeManagedId (offset length maxHeapSize idLength : ℕ) : Bytes :=
  let combined := offset ||| (length <<< maxHeapSize) % 2 ^ 64
  0 :: leBytes (min (idLength - 1) 8) combined ++ replicate (idLength - 1 - 8) 0

def undefOffset : Bytes := replicate 8 0xff

/-- What a heap header is written from. -/
structure WriteFrhp where
  heapIdLength : ℕ
  maxManaged : ℕ
  freeSpace : ℕ
  managedSpace : ℕ
  allocSpace : ℕ
  nobjects : ℕ
  tableWidth : ℕ
  startingBlockSize : ℕ
  maxDirectBlockSize : ℕ
  maxHeapSize : ℕ
  rootAddr : ℕ
  curRows : ℕ

def frhpBody (p : WriteFrhp) : Bytes :=
  utf8Bytes "FRHP" ++ leBytes 1 0 ++ leBytes 2 p.heapIdLength ++ leBytes 2 0 ++ leBytes 1 2 ++
    leBytes 4 p.maxManaged ++
    -- huge objects, free space, space of the heap, allocation
    (leBytes 8 0 ++ undefOffset ++ leBytes 8 p.freeSpace ++ undefOffset ++
      leBytes 8 p.managedSpace ++ leBytes 8 p.allocSpace ++ leBytes 8 0) ++
    leBytes 8 p.nobjects ++
    -- huge and tiny objects
    (leBytes 8 0 ++ leBytes 8 0 ++ leBytes 8 0 ++ leBytes 8 0) ++
    leBytes 2 p.tableWidth ++ leBytes 8 p.startingBlockSize ++ leBytes 8 p.maxDirectBlockSize ++
    leBytes 2 p.maxHeapSize ++ leBytes 2 1 ++ leBytes 8 p.rootAddr ++ leBytes 2 p.curRows

def writeFrhp (p : WriteFrhp) : Bytes := frhpBody p ++ checksum (frhpBody p)

def frhpHeaderSize (os ls : ℕ) : ℕ :=
  4 + 1 + 2 + 2 + 1 + 4 + ls + os + ls + os + ls + ls + ls + ls + ls + ls + ls + ls + 2 + ls + ls +
    2 + 2 + os + 2 + 4

/-! ### Direct blocks -/

def dblockHeaderSize (maxHeapSize : ℕ) : ℕ := 4 + 1 + 8 + (maxHeapSize + 7) / 8 + 4

/-- The start of a direct block, before its checksum. -/
def dblockHead (frhpAddr heapOffset maxHeapSize : ℕ) : Bytes :=
  utf8Bytes "FHDB" ++ leBytes 1 0 ++ leBytes 8 frhpAddr ++
    (leBytes 8 heapOffset).take ((maxHeapSize + 7) / 8)

/-- A direct block, cut or padded to its size. The checksum covers the block with a checksum of
zero. -/
def directBlock (frhpAddr heapOffset maxHeapSize size : ℕ) (data : Bytes) : Bytes :=
  let head := dblockHead frhpAddr heapOffset maxHeapSize
  let dblock := resize size 0 (head ++ replicate 4 0 ++ data)
  overwrite dblock head.length (checksum dblock)

/-- A heap and the identifiers of its objects. -/
structure FractalHeapBlock where
  blob : Bytes
  frhpAddr : ℕ
  btreeAddr : ℕ
  heapIds : List Bytes
  heapIdLength : ℕ

def maxDirectBlockSize : ℕ := 65536

/-- The largest object the header declares. -/
def maxManaged (maxHeapSize : ℕ) : ℕ := maxDirectBlockSize - dblockHeaderSize maxHeapSize

/-! ### Packing into the doubling table -/

def tableWidth : ℕ := 4

def blockSizeForRow (startingBlockSize row : ℕ) : ℕ :=
  if row ≤ 1 then startingBlockSize else startingBlockSize * 2 ^ (row - 1)

def startingBlockSize : ℕ := 512

/-- A direct block that is being filled. -/
structure Blk where
  row : ℕ
  size : ℕ
  heapOffset : ℕ
  data : Bytes

/-- The state of packing: the finished blocks, where each object went, the place of the current
block in the table, and the current block. -/
structure Packing where
  blocks : List Blk
  objLoc : List (ℕ × ℕ)
  row : ℕ
  col : ℕ
  heapOff : ℕ
  cur : Option Blk

namespace Packing

/-- The current block. It is opened when there is none. -/
def current (st : Packing) : Blk :=
  st.cur.getD ⟨st.row, blockSizeForRow startingBlockSize st.row, st.heapOff, []⟩

/-- Finish a block and go on to the next place of the table. -/
def finish (st : Packing) (blk : Blk) : Packing where
  blocks := st.blocks ++ [blk]
  objLoc := st.objLoc
  row := if st.col + 1 ≥ tableWidth then st.row + 1 else st.row
  col := if st.col + 1 ≥ tableWidth then 0 else st.col + 1
  heapOff := st.heapOff + blk.size
  cur := none

/-- Append an object to a block, which becomes the current one. -/
def put (headerSize : ℕ) (st : Packing) (blk : Blk) (s : Bytes) : Packing :=
  { st with
    objLoc := st.objLoc ++ [(blk.heapOffset + (headerSize + blk.data.length), s.length)]
    cur := some { blk with data := blk.data ++ s } }

def place (headerSize : ℕ) (st : Packing) (s : Bytes) : Packing :=
  let blk := st.current
  let cap := blockSizeForRow startingBlockSize blk.row - headerSize
  if blk.data ≠ [] ∧ cap < blk.data.length + s.length then
    let st := st.finish blk
    st.put headerSize st.current s
  else st.put headerSize blk s

/-- All blocks, with the current one at the end. -/
def allBlocks (st : Packing) : List Blk := st.blocks ++ st.cur.toList

end Packing

def pack (headerSize : ℕ) (serialized : List Bytes) : Packing :=
  serialized.foldl (Packing.place headerSize) ⟨[], [], 0, 0, 0, none⟩

/-! ### Heaps -/

/-- The addresses of blocks that lie one behind another from `a` on. -/
def blkAddrs (a : ℕ) : List Blk → List ℕ
  | [] => []
  | b :: bs => a :: blkAddrs (a + b.size) bs

/-- The root indirect block, without its checksum: the addresses of the blocks, then undefined
ones up to `entries`. -/
def fhibBody (frhpAddr maxHeapSize entries : ℕ) (addrs : List ℕ) : Bytes :=
  utf8Bytes "FHIB" ++ leBytes 1 0 ++ leBytes 8 frhpAddr ++
    replicate ((maxHeapSize + 7) / 8) 0 ++ addrs.flatMap (leBytes 8) ++
    (replicate (entries - addrs.length) undefOffset).flatten

/-- A heap of several blocks. -/
def buildMultiblockFractalHeap (serialized : List Bytes)
    (baseAddress maxHeapSize heapIdLength : ℕ) : FractalHeapBlock :=
  let headerSize := dblockHeaderSize maxHeapSize
  let packing := pack headerSize serialized
  let blocks := packing.allBlocks
  let curRows := ((blocks.getLast?.elim 0 Blk.row) + 1) % 2 ^ 16
  let frhpAddr := baseAddress
  let fhibAddr := frhpAddr + frhpHeaderSize 8 8
  let fhibEntries := curRows * tableWidth
  let fhibSize := 5 + 8 + (maxHeapSize + 7) / 8 + fhibEntries * 8 + 4
  let firstDblockAddr := fhibAddr + fhibSize
  let allocSpace := (blocks.map Blk.size).sum
  let managedSpace := ((range curRows).map fun r =>
    blockSizeForRow startingBlockSize r * tableWidth).sum
  let used := (blocks.map fun b => headerSize + b.data.length).sum
  let frhp := writeFrhp
    { heapIdLength, maxManaged := maxManaged maxHeapSize, freeSpace := allocSpace - used,
      managedSpace, allocSpace, nobjects := serialized.length, tableWidth, startingBlockSize,
      maxDirectBlockSize, maxHeapSize, rootAddr := fhibAddr, curRows }
  let fhib := fhibBody frhpAddr maxHeapSize fhibEntries (blkAddrs firstDblockAddr blocks)
  { blob := frhp ++ (fhib ++ checksum fhib) ++
      blocks.flatMap fun b => directBlock frhpAddr b.heapOffset maxHeapSize b.size b.data
    frhpAddr
    btreeAddr := firstDblockAddr + allocSpace
    heapIds := packing.objLoc.map fun (off, len) => encodeManagedId off len maxHeapSize heapIdLength
    heapIdLength }

/-- The places of objects that lie one behind another from `pos` on. -/
def objOffsets (pos : ℕ) : List Bytes → List (ℕ × ℕ)
  | [] => []
  | s :: ss => (pos, s.length) :: objOffsets (pos + s.length) ss

/-- A heap of one block, or of several where the objects do not fit the largest block. -/
def buildSingleBlockFractalHeap (serialized : List Bytes)
    (baseAddress maxHeapSize heapIdLength : ℕ) : FractalHeapBlock :=
  let headerSize := dblockHeaderSize maxHeapSize
  let totalDataSize := (serialized.map length).sum
  let blockSize := max (nextPowerOfTwo (headerSize + totalDataSize)) 512
  if maxDirectBlockSize < blockSize then
    buildMultiblockFractalHeap serialized baseAddress maxHeapSize heapIdLength
  else
    let frhpAddr := baseAddress
    let dblockAddr := frhpAddr + frhpHeaderSize 8 8
    let frhp := writeFrhp
      { heapIdLength, maxManaged := maxManaged maxHeapSize,
        freeSpace := blockSize - headerSize - totalDataSize, managedSpace := blockSize,
        allocSpace := blockSize, nobjects := serialized.length, tableWidth,
        startingBlockSize := blockSize, maxDirectBlockSize, maxHeapSize,
        rootAddr := dblockAddr, curRows := 0 }
    { blob := frhp ++ directBlock frhpAddr 0 maxHeapSize blockSize serialized.flatten
      frhpAddr
      btreeAddr := dblockAddr + blockSize
      heapIds := (objOffsets headerSize serialized).map fun (off, len) =>
        encodeManagedId off len maxHeapSize heapIdLength
      heapIdLength }

/-! ### Reading the header back -/

/-- The header that is read back. -/
def WriteFrhp.header (p : WriteFrhp) : FractalHeapHeader where
  heapIdLength := p.heapIdLength % 256 ^ 2
  ioFilterEncodedLength := 0
  maxManagedObjectSize := p.maxManaged % 256 ^ 4
  tableWidth := p.tableWidth % 256 ^ 2
  startingBlockSize := p.startingBlockSize % 256 ^ 8
  maxDirectBlockSize := p.maxDirectBlockSize % 256 ^ 8
  maxHeapSize := p.maxHeapSize % 256 ^ 2
  startingRowOfIndirectBlocks := 1
  rootBlockAddress := p.rootAddr % 256 ^ 8
  currentRowsInRootIndirectBlock := p.curRows % 256 ^ 2
  managedObjectsCount := p.nobjects % 256 ^ 8

@[simp] theorem length_undefOffset : undefOffset.length = 8 := rfl

theorem length_frhpBody (p : WriteFrhp) : (frhpBody p).length = 142 := by
  simp only [frhpBody, length_append]
  rfl

@[simp] theorem length_writeFrhp (p : WriteFrhp) : (writeFrhp p).length = 146 := by
  rw [writeFrhp, length_append, length_frhpBody, length_checksum]

section

variable {file : Bytes} {base : ℕ}

/-- The header of a heap is read back. -/
theorem parse_writeFrhp (hfile : file.length < 2 ^ 63) (p : WriteFrhp)
    (h : StandsAt file base (writeFrhp p)) :
    FractalHeapHeader.parse file base 8 8 = .ok p.header := by
  have hle := h.le
  rw [length_writeFrhp] at hle
  have hsum := verifyChecksum_of_standsAt h
  rw [length_frhpBody] at hsum
  obtain ⟨hbody, -⟩ := standsAt_append.mp h
  have hsigLength : (utf8Bytes "FRHP").length = 4 := rfl
  simp only [frhpBody, standsAt_append, length_append, length_leBytes, hsigLength,
    length_undefOffset] at hbody
  obtain ⟨⟨⟨⟨⟨⟨⟨⟨⟨⟨⟨⟨⟨⟨⟨hsig, hversion⟩, hid⟩, hfilter⟩, hflags⟩, hmanaged⟩, -⟩, hcount⟩, -⟩,
    hwidth⟩, hstart⟩, hdirect⟩, hsize⟩, hrow⟩, hroot⟩, hrows⟩ := hbody
  have hsigAt : slice file base (base + 4) = .ok (utf8Bytes "FRHP") := slice_of_standsAt hsig
  simp only [FractalHeapHeader.parse]
  rw [ensureLen_bind (by omega) (by omega), hsigAt, ok_bind, byteAt_bind hversion (by decide),
    readField_of_standsAt hid (by omega), ok_bind, readField_of_standsAt hfilter (by omega),
    ok_bind, readField_of_standsAt hflags (by omega), ok_bind,
    readField_of_standsAt hmanaged (by omega), ok_bind,
    ensureLen_bind (by omega) (by omega),
    readOffset_of_standsAt_mod hcount (by decide) (by omega), ok_bind,
    readField_of_standsAt hwidth (by omega), ok_bind,
    readOffset_of_standsAt_mod hstart (by decide) (by omega), ok_bind,
    readOffset_of_standsAt_mod hdirect (by decide) (by omega), ok_bind,
    readField_of_standsAt hsize (by omega), ok_bind, readField_of_standsAt hrow (by omega),
    ok_bind, readOffset_of_standsAt_mod hroot (by decide) (by omega), ok_bind,
    readField_of_standsAt hrows (by omega), ok_bind]
  simp only [Nat.zero_mod, lt_irrefl, if_false]
  rw [ensureLen_bind (by omega) (by omega), hsum]
  rfl

end

/-! ### Identifiers -/

/-- An identifier whose offset and length have room in it gives both back. -/
theorem decodeManagedId_encode {header : FractalHeapHeader} {offset length idLength : ℕ}
    (hid : header.maxHeapSize + 16 = 8 * (idLength - 1)) (hmax : header.maxHeapSize ≤ 48)
    (hoffset : offset < 2 ^ header.maxHeapSize) (hlen : length < 2 ^ 16) :
    header.decodeManagedId (encodeManagedId offset length header.maxHeapSize idLength) =
      .ok (offset, length) := by
  set m := header.maxHeapSize with hm
  set w := idLength - 1 with hw
  have hpow : 2 ^ m * 2 ^ 16 = 256 ^ w := by
    rw [← pow_add, hid, pow_mul]
    rfl
  have hpow64 : 256 ^ w ≤ 2 ^ 64 := by
    rw [← hpow, ← pow_add]
    exact Nat.pow_le_pow_right two_pos (by omega)
  have hshift : length * 2 ^ m < 256 ^ w := by
    rw [← hpow, mul_comm]
    exact (Nat.mul_lt_mul_left (by positivity)).mpr hlen
  -- the two parts do not overlap, so they add up
  have hcombined : offset ||| (length <<< m) % 2 ^ 64 = offset + length * 2 ^ m := by
    rw [Nat.mod_eq_of_lt (by omega), ← Nat.shiftLeft_eq, Nat.or_comm,
      ← Nat.shiftLeft_add_eq_or_of_lt hoffset, add_comm]
  have hlt : offset + length * 2 ^ m < 256 ^ w := by
    have : (length + 1) * 2 ^ m ≤ 2 ^ 16 * 2 ^ m := Nat.mul_le_mul_right _ hlen
    rw [add_mul] at this
    omega
  have hcut : w - 8 = 0 := by omega
  rw [encodeManagedId, hcombined, min_eq_left (by omega), hcut, replicate_zero,
    append_nil, FractalHeapHeader.decodeManagedId]
  dsimp only
  rw [reject_bind (by decide), take_of_length_le (by simp; omega),
    ofLeBytes_leBytes, Nat.mod_eq_of_lt hlt, length_leBytes,
    if_neg (by omega), Nat.mod_eq_of_lt (by omega : m < 64), min_eq_left (by omega : m ≤ 64),
    show w * 8 - m = 16 by omega, Nat.add_mul_mod_self_right, Nat.mod_eq_of_lt hoffset,
    Nat.add_mul_div_right _ _ (by positivity), Nat.div_eq_of_lt hoffset, zero_add,
    min_eq_left (by decide), Nat.mod_eq_of_lt hlen]

/-! ### Objects in a direct block -/

theorem length_dblockHead {maxHeapSize : ℕ} (hmax : maxHeapSize ≤ 64) (frhpAddr heapOffset : ℕ) :
    (dblockHead frhpAddr heapOffset maxHeapSize).length + 4 = dblockHeaderSize maxHeapSize := by
  have hsigLength : (utf8Bytes "FHDB").length = 4 := rfl
  simp only [dblockHead, dblockHeaderSize, length_append, length_take, length_leBytes]
  omega

theorem length_directBlock {frhpAddr heapOffset maxHeapSize size : ℕ} (hmax : maxHeapSize ≤ 64)
    (hsize : dblockHeaderSize maxHeapSize ≤ size) (data : Bytes) :
    (directBlock frhpAddr heapOffset maxHeapSize size data).length = size := by
  have hhead := length_dblockHead hmax frhpAddr heapOffset
  rw [directBlock, length_overwrite (by rw [length_resize]; omega), length_resize, length_checksum]
  omega

/-- An object of the data stands behind the header, where the block has room for all the data. -/
theorem standsAt_directBlock {frhpAddr heapOffset maxHeapSize size p : ℕ} {data s : Bytes}
    (hmax : maxHeapSize ≤ 64) (hsize : dblockHeaderSize maxHeapSize + data.length ≤ size)
    (h : StandsAt data p s) :
    StandsAt (directBlock frhpAddr heapOffset maxHeapSize size data)
      (dblockHeaderSize maxHeapSize + p) s := by
  have hhead := length_dblockHead hmax frhpAddr heapOffset
  rw [← hhead] at hsize ⊢
  rw [directBlock]
  set head := dblockHead frhpAddr heapOffset maxHeapSize
  -- nothing is cut off
  have hresize : resize size 0 (head ++ replicate 4 0 ++ data) = head ++ (replicate 4 0 ++
        (data ++ replicate (size - (head.length + 4 + data.length)) 0)) := by
    rw [resize, take_of_length_le (by simp; omega)]
    simp only [append_assoc, length_append, length_replicate, add_assoc]
  have hdrop : ∀ ys zs : Bytes, (head ++ (replicate 4 0 ++ ys)).drop
      (head.length + (checksum zs).length) = ys := by
    intro ys zs
    rw [← append_assoc, drop_left' (by simp)]
  rw [hresize, overwrite, take_left, hdrop]
  have hdata : StandsAt (head ++ checksum (head ++ (replicate 4 0 ++
        (data ++ replicate (size - (head.length + 4 + data.length)) 0))) ++
      (data ++ replicate (size - (head.length + 4 + data.length)) 0)) (head.length + 4) data :=
    ⟨_, _, (append_assoc _ _ _).symm, by rw [length_append, length_checksum]⟩
  exact hdata.trans h

end ClawHdf5.Format
