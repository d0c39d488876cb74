import ClawHdf5.Format.ExtensibleArray
import ClawHdf5.Format.FixedArray

/-!
# Writing extensible arrays

The writer puts the first elements into the index block and the others into data blocks behind
it. It derives the sizes of the data blocks by its own formula, which doubles the number of
blocks and their size in turn, where the reader of `ExtensibleArray` doubles the number of blocks
at every level. The two agree on the first data block, and on the first half of the second.
-/

namespace ClawHdf5.Format

open Bytes List

/-! ### Parameters -/

/-- The width of an element number, in bits. -/
def eaMaxNelmtsBits : ℕ := 32

/-- The number of elements in the index block. -/
def eaIdxBlkElmts : ℕ := 4

/-- The number of elements in the first data block. -/
def eaMinDblkNelmts : ℕ := 16

/-- The number of super blocks whose data blocks have their addresses in the index block. -/
def eaSuperBlkMinNelmts : ℕ := 4

def eaMaxDblkNelmtsBits : ℕ := 10

def eaNsblks : ℕ := eaMaxNelmtsBits - Nat.log2 eaMinDblkNelmts + 1

/-- The sizes of the data blocks whose addresses are in the index block. -/
def dblkSizes : List ℕ :=
  (range (min eaSuperBlkMinNelmts eaNsblks)).flatMap fun sblk =>
    replicate (2 ^ (sblk / 2)) (eaMinDblkNelmts * 2 ^ ((sblk + 1) / 2))

example : dblkSizes = [16, 32, 32, 32, 64, 64] := by decide

/-! ### Blocks -/

section

variable (chunks : List WrittenChunk) (offsetSize lengthSize : ℕ) (hasFilters : Bool)
  (eaBaseAddress : ℕ)

def eaElement (i : ℕ) : Bytes :=
  match chunks[i]? with
  | some chunk =>
    writeChunkElement offsetSize hasFilters (chunkSizeBytes chunks hasFilters) chunk
  | none => writeUndefinedElement offsetSize hasFilters (chunkSizeBytes chunks hasFilters)

/-- A data block, without its checksum: its slots from `chunkIdx` on. -/
def eadbBody (chunkIdx nelmts : ℕ) : Bytes :=
  let nInline := min eaIdxBlkElmts chunks.length
  utf8Bytes "EADB" ++ leBytes 1 0 ++ leBytes 1 (clientId hasFilters) ++
    writeAddress offsetSize eaBaseAddress ++
    (leBytes 8 (chunkIdx - nInline)).take ((eaMaxNelmtsBits + 7) / 8) ++
    (range nelmts).flatMap fun slot => eaElement chunks offsetSize hasFilters (chunkIdx + slot)

def eadb (chunkIdx nelmts : ℕ) : Bytes :=
  let body := eadbBody chunks offsetSize hasFilters eaBaseAddress chunkIdx nelmts
  body ++ checksum body

/-- The address of a block that does not exist. -/
def undefinedAddress : Bytes := writeAddress offsetSize (2 ^ 64 - 1)

/-- The data blocks of the given sizes, with their addresses as they stand in the index block.
The first block stands at `cursor`; only blocks with chunks are written. -/
def eaBlocks : (sizes : List ℕ) → (chunkIdx cursor : ℕ) → Bytes × Bytes
  | [], _, _ => ([], [])
  | nelmts :: sizes, chunkIdx, cursor =>
    if chunks.length ≤ chunkIdx then
      let (addresses, blocks) := eaBlocks sizes chunkIdx cursor
      (undefinedAddress offsetSize ++ addresses, blocks)
    else
      let block := eadb chunks offsetSize hasFilters eaBaseAddress chunkIdx nelmts
      let (addresses, blocks) := eaBlocks sizes (chunkIdx + nelmts) (cursor + block.length)
      (writeAddress offsetSize cursor ++ addresses, block ++ blocks)

/-- The sizes of the blocks that have chunks. -/
def activeSizes (numElements : ℕ) : (sizes : List ℕ) → (chunkIdx : ℕ) → List ℕ
  | [], _ => []
  | nelmts :: sizes, chunkIdx =>
    if chunkIdx < numElements then nelmts :: activeSizes numElements sizes (chunkIdx + nelmts)
    else activeSizes numElements sizes chunkIdx

def aehdSize : ℕ := 4 + 1 + 1 + 1 + 1 + 1 + 1 + 1 + 1 + 6 * lengthSize + offsetSize + 4

def aeibSize : ℕ :=
  4 + 1 + 1 + offsetSize + eaIdxBlkElmts * elementSize chunks offsetSize hasFilters +
    dblkSizes.length * offsetSize + (eaNsblks - eaSuperBlkMinNelmts) * offsetSize + 4

def aehdBody : Bytes :=
  let nInline := min eaIdxBlkElmts chunks.length
  let active := activeSizes chunks.length dblkSizes nInline
  let overhead := 4 + 1 + 1 + offsetSize + (eaMaxNelmtsBits + 7) / 8 + 4
  utf8Bytes "EAHD" ++ leBytes 1 0 ++ leBytes 1 (clientId hasFilters) ++
    leBytes 1 (elementSize chunks offsetSize hasFilters) ++ leBytes 1 eaMaxNelmtsBits ++
    leBytes 1 eaIdxBlkElmts ++ leBytes 1 eaMinDblkNelmts ++ leBytes 1 eaSuperBlkMinNelmts ++
    leBytes 1 eaMaxDblkNelmtsBits ++ writeLength lengthSize 0 ++ writeLength lengthSize 0 ++
    writeLength lengthSize active.length ++
    writeLength lengthSize (active.map fun size =>
      overhead + size * elementSize chunks offsetSize hasFilters).sum ++
    writeLength lengthSize chunks.length ++ writeLength lengthSize (eaIdxBlkElmts + active.sum) ++
    writeAddress offsetSize (eaBaseAddress + aehdSize offsetSize lengthSize)

/-- The index block, without its checksum, when `addresses` are those of its data blocks. -/
def aeibBody (addresses : Bytes) : Bytes :=
  utf8Bytes "EAIB" ++ leBytes 1 0 ++ leBytes 1 (clientId hasFilters) ++
    writeAddress offsetSize eaBaseAddress ++
    (range eaIdxBlkElmts).flatMap (eaElement chunks offsetSize hasFilters) ++ addresses ++
    (replicate (eaNsblks - eaSuperBlkMinNelmts) (undefinedAddress offsetSize)).flatten

/-- An extensible array at `eaBaseAddress`: the header, the index block and the data blocks. -/
def buildExtensibleArrayAt : Bytes :=
  let aehd := aehdBody chunks offsetSize lengthSize hasFilters eaBaseAddress
  let dblksBase := eaBaseAddress + aehdSize offsetSize lengthSize +
    aeibSize chunks offsetSize hasFilters
  let (addresses, blocks) := eaBlocks chunks offsetSize hasFilters eaBaseAddress dblkSizes
    (min eaIdxBlkElmts chunks.length) dblksBase
  let aeib := aeibBody chunks offsetSize hasFilters eaBaseAddress addresses
  aehd ++ checksum aehd ++ (aeib ++ checksum aeib) ++ blocks

end

/-! ### Sizes -/

section

variable (chunks : List WrittenChunk) (hasFilters : Bool) (base : ℕ)

theorem length_aehdBody : (aehdBody chunks 8 8 hasFilters base).length = 68 := by
  simp only [aehdBody, length_append]
  rfl

theorem writeUndefinedElement_eq :
    writeUndefinedElement 8 hasFilters (chunkSizeBytes chunks hasFilters) =
      writeChunkElement 8 hasFilters (chunkSizeBytes chunks hasFilters) ⟨2 ^ 64 - 1, 0, 0, 0⟩ := by
  have hzero : ∀ w, leBytes w 0 = replicate w 0 := by
    intro w
    induction w with
    | zero => rfl
    | succ w ih => rw [leBytes, ih]; rfl
  cases hasFilters with
  | false => rw [writeChunkElement_unfiltered]; rfl
  | true =>
    rw [writeChunkElement_filtered (chunkSizeBytes_le chunks true), hzero]
    rfl

/-- Slot `i` as an element: one that no chunk has is that of the undefined address. -/
theorem eaElement_eq (i : ℕ) : eaElement chunks 8 hasFilters i =
      writeChunkElement 8 hasFilters (chunkSizeBytes chunks hasFilters)
        (chunks[i]?.getD ⟨2 ^ 64 - 1, 0, 0, 0⟩) := by
  unfold eaElement
  cases chunks[i]? with
  | none => exact writeUndefinedElement_eq chunks hasFilters
  | some chunk => rfl

theorem length_eaElement (i : ℕ) :
    (eaElement chunks 8 hasFilters i).length = elementSize chunks 8 hasFilters := by
  rw [eaElement_eq, length_writeChunkElement]

theorem length_eadb (i nelmts : ℕ) : (eadb chunks 8 hasFilters base i nelmts).length =
      18 + nelmts * elementSize chunks 8 hasFilters + 4 := by
  simp only [eadb, eadbBody, length_append, length_range,
    Overwrite.length_slots fun slot => length_eaElement chunks hasFilters (i + slot)]
  rfl

theorem length_eaBlocks (sizes : List ℕ) (i cursor : ℕ) :
    (eaBlocks chunks 8 hasFilters base sizes i cursor).1.length = sizes.length * 8 ∧
      (eaBlocks chunks 8 hasFilters base sizes i cursor).2.length ≤
        (sizes.map fun size => 18 + size * elementSize chunks 8 hasFilters + 4).sum := by
  induction sizes generalizing i cursor with
  | nil => simp [eaBlocks]
  | cons size sizes ih =>
    rw [eaBlocks]
    split_ifs
    · have := ih i cursor
      simp only [undefinedAddress, length_append, length_writeAddress, length_cons,
        map_cons, sum_cons]
      omega
    · have := ih (i + size) (cursor + (eadb chunks 8 hasFilters base i size).length)
      simp only [length_append, length_writeAddress, length_eadb, length_cons,
        map_cons, sum_cons] at this ⊢
      omega

theorem length_aeibHead : (utf8Bytes "EAIB" ++ leBytes 1 0 ++ leBytes 1 (clientId hasFilters) ++
      writeAddress 8 base).length = 14 := by
  rfl

theorem length_aeibBody {addresses : Bytes} (h : addresses.length = dblkSizes.length * 8) :
    (aeibBody chunks 8 hasFilters base addresses).length + 4 = aeibSize chunks 8 hasFilters := by
  have hslots := Overwrite.length_slots (length_eaElement chunks hasFilters) (range eaIdxBlkElmts)
  rw [length_range] at hslots
  rw [aeibBody, length_append, length_append, length_append, length_aeibHead,
    hslots, h, length_flatten, map_replicate, sum_replicate_nat, undefinedAddress,
    length_writeAddress, aeibSize]

end

/-! ### How the reader takes the blocks -/

/-- The sizes by which the reader reads the data blocks that the writer writes. -/
def directReadSizes : List ℕ := [16, 16, 16, 32, 32, 32]

/-- The sizes of the further data blocks that the reader finds in the index block. -/
def furtherReadSizes : List ℕ := [32, 64, 64, 64, 64, 64, 64, 64, 64]

theorem directBlockSizes_eq : directBlockSizes eaSuperBlkMinNelmts 0 eaMinDblkNelmts =
      .ok (directReadSizes ++ furtherReadSizes) := by decide

end ClawHdf5.Format
