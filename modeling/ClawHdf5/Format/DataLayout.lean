import ClawHdf5.Format.Basic
import ClawHdf5.Math.MachineInt

/-!
# Data layout messages

The message that says how a dataset's bytes are stored: inside the message, in one run of the
file, in chunks behind an index, or as a view of other datasets. Versions 3 and 4 are read; the
writer of chunked datasets emits version 4.
-/

namespace ClawHdf5.Format

open Bytes Fallible List

/-- A chunked layout. The last chunk dimension is the size of an element. -/
structure ChunkedLayout where
  chunkDimensions : List ℕ
  btreeAddress : Option ℕ
  version : ℕ
  chunkIndexType : Option ℕ
  singleChunkFilteredSize : Option ℕ
  singleChunkFilterMask : Option ℕ
  deriving DecidableEq

/-- How a dataset's bytes are stored. The source mappings of a virtual layout are found behind
the heap address and not in the message. -/
inductive DataLayout
  | compact (data : Bytes)
  | contiguous (address : Option ℕ) (size : ℕ)
  | chunked (layout : ChunkedLayout)
  | virtual (globalHeapAddress : Option ℕ) (globalHeapIndex : ℕ)
  deriving DecidableEq

namespace DataLayout

/-! ### Reading -/

/-- A compact layout, from behind the class byte. -/
def parseCompact (data : Bytes) (pos : ℕ) : Run DataLayout := do
  ensureLen data pos 2
  let size ← leAt data pos 2
  ensureLen data (pos + 2) size
  let raw ← slice data (pos + 2) (pos + 2 + size)
  .ok (.compact raw)

/-- A contiguous layout, from behind the class byte. -/
def parseContiguous (data : Bytes) (pos offsetSize lengthSize : ℕ) : Run DataLayout := do
  ensureLen data pos (offsetSize + lengthSize)
  let address ← readAddress data pos offsetSize
  let size ← readOffset data (pos + offsetSize) lengthSize
  .ok (.contiguous address size)

/-- A chunk dimension of `width` bytes. Of eight bytes the upper four must be zero. -/
def readDim (data : Bytes) (width pos : ℕ) : Run ℕ :=
  match width with
  | 1 => byteAt data pos
  | 2 => leAt data pos 2
  | 4 => leAt data pos 4
  | 8 => do
    let high ← leAt data (pos + 4) 4
    if high ≠ 0 then fail (.unexpectedEof (pos + 8) data.length)
    else leAt data pos 4
  | width => fail (.unexpectedEof (pos + width) data.length)

/-- `n` chunk dimensions of `width` bytes each. -/
def readDims (data : Bytes) (width : ℕ) : ℕ → ℕ → Run (List ℕ)
  | 0, _ => .ok []
  | n + 1, pos => do
    let dim ← readDim data width pos
    let dims ← readDims data width n (pos + width)
    .ok (dim :: dims)

def parseV3 (data : Bytes) (layoutClass offsetSize lengthSize : ℕ) : Run DataLayout :=
  match layoutClass with
  | 0 => parseCompact data 2
  | 1 => parseContiguous data 2 offsetSize lengthSize
  | 2 => do
    ensureLen data 2 1
    let dimensionality ← byteAt data 2
    ensureLen data 3 offsetSize
    let btreeAddress ← readAddress data 3 offsetSize
    ensureLen data (3 + offsetSize) (dimensionality * 4)
    let chunkDimensions ← readDims data 4 dimensionality (3 + offsetSize)
    .ok (.chunked ⟨chunkDimensions, btreeAddress, 3, none, none, none⟩)
  | layoutClass => fail (.invalidLayoutClass layoutClass)

/-- The fields of a version 4 chunk index: the size and filter mask of a filtered single chunk,
and the address. The creation parameters of the arrays and of the B-tree are skipped. -/
def parseIndex (data : Bytes) (chunkIndexType flags pos offsetSize lengthSize : ℕ) :
    Run (Option ℕ × Option ℕ × Option ℕ) :=
  let addressAfter (skip : ℕ) : Run (Option ℕ × Option ℕ × Option ℕ) := do
    ensureLen data pos (skip + offsetSize)
    let address ← readAddress data (pos + skip) offsetSize
    .ok (none, none, address)
  match chunkIndexType with
  | 1 =>
    if flags.testBit 1 then do
      ensureLen data pos (lengthSize + 4 + offsetSize)
      let filteredSize ← readOffset data pos lengthSize
      let filterMask ← leAt data (pos + lengthSize) 4
      let address ← readAddress data (pos + lengthSize + 4) offsetSize
      .ok (some filteredSize, some filterMask, address)
    else addressAfter 0
  | 3 => addressAfter 1
  | 4 => addressAfter 5
  | 5 => addressAfter 6
  | _ => addressAfter 0

/-- Version 4, and version 5, which has the same structure. -/
def parseV4 (data : Bytes) (layoutClass offsetSize lengthSize : ℕ) : Run DataLayout :=
  match layoutClass with
  | 0 => parseCompact data 2
  | 1 => parseContiguous data 2 offsetSize lengthSize
  | 2 => do
    ensureLen data 2 3
    let flags ← byteAt data 2
    let dimensionality ← byteAt data 3
    let width ← byteAt data 4
    ensureLen data 5 (dimensionality * width)
    let chunkDimensions ← readDims data width dimensionality 5
    let pos := 5 + dimensionality * width
    ensureLen data pos 1
    let chunkIndexType ← byteAt data pos
    let (filteredSize, filterMask, address) ←
      parseIndex data chunkIndexType flags (pos + 1) offsetSize lengthSize
    .ok (.chunked ⟨chunkDimensions, address, 4, some chunkIndexType, filteredSize, filterMask⟩)
  | 3 => do
    ensureLen data 2 (offsetSize + 4)
    let globalHeapAddress ← readAddress data 2 offsetSize
    let globalHeapIndex ← leAt data (2 + offsetSize) 4
    .ok (.virtual globalHeapAddress globalHeapIndex)
  | layoutClass => fail (.invalidLayoutClass layoutClass)

def parse (data : Bytes) (offsetSize lengthSize : ℕ) : Run DataLayout := do
  ensureLen data 0 2
  let version ← byteAt data 0
  let layoutClass ← byteAt data 1
  match version with
  | 3 => parseV3 data layoutClass offsetSize lengthSize
  | 4 => parseV4 data layoutClass offsetSize lengthSize
  | 5 => parseV4 data layoutClass offsetSize lengthSize
  | version => fail (.invalidLayoutVersion version)

end DataLayout

/-! ### Writing -/

/-- The number of bytes in which chunk dimensions are stored. -/
def dimEncodedLen (chunkDims : List ℕ) (elementSize : ℕ) : ℕ :=
  let maxDim := (chunkDims ++ [elementSize]).foldl max 0
  if maxDim ≤ 0xff then 1 else if maxDim ≤ 0xffff then 2 else 4

/-- The part that all version 4 chunked messages share, up to the index type. The dimensions are
the chunk's and then the size of an element. -/
def chunkedHead (flags : ℕ) (chunkDims : List ℕ) (elementSize chunkIndexType : ℕ) : Bytes :=
  let width := dimEncodedLen chunkDims elementSize
  leBytes 1 4 ++ leBytes 1 2 ++ leBytes 1 flags ++ leBytes 1 (chunkDims.length + 1) ++
    leBytes 1 width ++ (chunkDims ++ [elementSize]).flatMap (leBytes width) ++
    leBytes 1 chunkIndexType

/-- The sizes of an address for which there is a message. The writer asks for no other. -/
inductive OffsetSize
  | four
  | eight

def addressField (offsetSize : OffsetSize) (address : ℕ) : Bytes :=
  match offsetSize with
  | .four => leBytes 4 address
  | .eight => leBytes 8 address

def serializeV4SingleChunk (chunkDims : List ℕ) (chunkAddress : ℕ) (filteredSize : Option ℕ)
    (filterMask : Option ℕ) (offsetSize : OffsetSize) (elementSize : ℕ) : Bytes :=
  let flags := if filteredSize.isSome then 2 else 0
  let filtered := match filteredSize, filterMask with
    | some fs, some fm => leBytes 8 fs ++ leBytes 4 fm
    | _, _ => []
  chunkedHead flags chunkDims elementSize 1 ++ filtered ++ addressField offsetSize chunkAddress

def serializeV4FixedArray (chunkDims : List ℕ) (fixedArrayAddress : ℕ) (offsetSize : OffsetSize)
    (elementSize maxBits : ℕ) : Bytes :=
  chunkedHead 0 chunkDims elementSize 3 ++ leBytes 1 maxBits ++
    addressField offsetSize fixedArrayAddress

def serializeV4ExtensibleArray (chunkDims : List ℕ) (eaAddress : ℕ) (offsetSize : OffsetSize)
    (elementSize : ℕ) : Bytes :=
  chunkedHead 0 chunkDims elementSize 4 ++ [32, 4, 4, 16, 10] ++
    addressField offsetSize eaAddress

/-! ### Reading back what was written -/

section

open DataLayout

variable {data : Bytes} {pos width flags chunkIndexType elementSize offsetSize lengthSize : ℕ}
  {chunkDims : List ℕ}

theorem readDims_of_standsAt {dims : List ℕ} (hwidth : width = 1 ∨ width = 2 ∨ width = 4)
    (hdims : ∀ dim ∈ dims, dim < 256 ^ width)
    (h : StandsAt data pos (dims.flatMap (leBytes width))) :
    readDims data width dims.length pos = .ok dims := by
  induction dims generalizing pos with
  | nil => rfl
  | cons dim dims ih =>
    obtain ⟨hdim, hdims⟩ := forall_mem_cons.mp hdims
    rw [flatMap_cons, standsAt_append, length_leBytes] at h
    have hread : readDim data width pos = .ok dim := by
      rcases hwidth with rfl | rfl | rfl
      · exact byteAt_of_standsAt_leBytes h.1 hdim
      · exact leAt_of_standsAt h.1 hdim
      · exact leAt_of_standsAt h.1 hdim
    rw [length_cons, readDims, hread, ok_bind, ih hdims h.2, ok_bind]

theorem dimEncodedLen_cases (chunkDims : List ℕ) (elementSize : ℕ) :
    dimEncodedLen chunkDims elementSize = 1 ∨ dimEncodedLen chunkDims elementSize = 2 ∨
      dimEncodedLen chunkDims elementSize = 4 := by
  simp only [dimEncodedLen]
  split_ifs <;> simp

theorem lt_of_mem_dims (hdims : ∀ dim ∈ chunkDims ++ [elementSize], dim < 2 ^ 32) {dim : ℕ}
    (hdim : dim ∈ chunkDims ++ [elementSize]) :
    dim < 256 ^ dimEncodedLen chunkDims elementSize := by
  have hmax : dim ≤ (chunkDims ++ [elementSize]).foldl max 0 := MachineInt.le_foldl_max (.inl hdim)
  have hlt := hdims dim hdim
  simp only [dimEncodedLen]
  split_ifs <;> omega

theorem length_chunkedHead (flags : ℕ) (chunkDims : List ℕ) (elementSize chunkIndexType : ℕ) :
    (chunkedHead flags chunkDims elementSize chunkIndexType).length =
      5 + (chunkDims.length + 1) * dimEncodedLen chunkDims elementSize + 1 := by
  simp only [chunkedHead, length_append, length_leBytes,
    Overwrite.length_slots (fun _ => length_leBytes _ _), length_singleton]

theorem length_chunkedHead_le (hrank : chunkDims.length < 255) :
    (chunkedHead flags chunkDims elementSize chunkIndexType).length ≤ 1026 := by
  have hle : (chunkDims.length + 1) * dimEncodedLen chunkDims elementSize ≤ 255 * 4 :=
    Nat.mul_le_mul hrank
      (by rcases dimEncodedLen_cases chunkDims elementSize with h | h | h <;> omega)
  rw [length_chunkedHead]
  omega

/-- The index fields that end in an address `skip` bytes behind the index type. -/
theorem parseIndex_of_standsAt {address : ℕ} (skipped : Bytes)
    (htype : chunkIndexType = 1 ∧ flags = 0 ∧ skipped = [] ∨
      chunkIndexType = 3 ∧ skipped.length = 1 ∨ chunkIndexType = 4 ∧ skipped.length = 5)
    (hlt : pos + skipped.length + 8 < 2 ^ 64) (haddress : address < 2 ^ 64 - 1)
    (h : StandsAt data pos (skipped ++ leBytes 8 address)) :
    parseIndex data chunkIndexType flags pos 8 lengthSize = .ok (none, none, some address) := by
  have hle := h.le
  rw [length_append] at hle
  rw [standsAt_append] at h
  have hread := readAddress_of_standsAt h.2 haddress hlt
  have hensure : ensureLen data pos (skipped.length + 8) = .ok () := ensureLen_of_le hle (by omega)
  rcases htype with ⟨rfl, rfl, rfl⟩ | ⟨rfl, hskip⟩ | ⟨rfl, hskip⟩
  · simp only [parseIndex, Nat.zero_testBit, Bool.false_eq_true, if_false]
    rw [length_nil] at hensure hread
    rw [hensure, ok_bind, hread, ok_bind]
  all_goals
    rw [hskip] at hensure hread
    simp only [parseIndex]
    rw [hensure, ok_bind, hread, ok_bind]

section

variable {address : ℕ} (hrank : chunkDims.length < 255)
  (hdims : ∀ dim ∈ chunkDims ++ [elementSize], dim < 2 ^ 32)
include hrank hdims

/-- What a chunked message is read as, up to the fields of its index. -/
theorem parse_of_chunkedHead (hflags : flags < 256) (htype : chunkIndexType < 256)
    (h : StandsAt data 0 (chunkedHead flags chunkDims elementSize chunkIndexType)) :
    parse data offsetSize lengthSize = (do
      let (filteredSize, filterMask, address) ← parseIndex data chunkIndexType flags
          (chunkedHead flags chunkDims elementSize chunkIndexType).length offsetSize lengthSize
      .ok (.chunked ⟨chunkDims ++ [elementSize], address, 4, some chunkIndexType, filteredSize,
        filterMask⟩)) := by
  have hwidth := dimEncodedLen_cases chunkDims elementSize
  have hbound : (chunkedHead flags chunkDims elementSize chunkIndexType).length ≤ 1026 :=
    length_chunkedHead_le hrank
  have hle := h.le
  rw [length_chunkedHead] at hle hbound ⊢
  simp only [chunkedHead, standsAt_append, length_append, length_leBytes,
    Overwrite.length_slots (fun _ => length_leBytes _ _), length_singleton, zero_add] at h
  obtain ⟨⟨⟨⟨⟨⟨hversion, hclass⟩, hflag⟩, hndims⟩, hlen⟩, hdim⟩, hindex⟩ := h
  have hensure {p n : ℕ} (hp : p + n ≤ 5 + (chunkDims.length + 1) *
      dimEncodedLen chunkDims elementSize + 1) : ensureLen data p n = .ok () :=
    ensureLen_of_le (by omega) (by omega)
  have hdimsRead : readDims data (dimEncodedLen chunkDims elementSize)
      (chunkDims.length + 1) 5 = .ok (chunkDims ++ [elementSize]) := by
    have := readDims_of_standsAt hwidth (fun _ hdim => lt_of_mem_dims hdims hdim) hdim
    rwa [length_append] at this
  rw [parse, hensure (by omega), ok_bind, byteAt_bind hversion (by decide),
    byteAt_bind hclass (by decide)]
  simp only [parseV4]
  rw [hensure (by omega), ok_bind, byteAt_bind hflag hflags, byteAt_bind hndims (by omega),
    byteAt_bind hlen (by omega), hensure (by omega), ok_bind, hdimsRead,
    ok_bind, hensure (by omega), ok_bind, byteAt_bind hindex htype]

variable (haddress : address < 2 ^ 64 - 1)
include haddress

theorem parse_of_standsAt_address (skipped : Bytes) (htype : chunkIndexType = 1 ∧ skipped = [] ∨
      chunkIndexType = 3 ∧ skipped.length = 1 ∨ chunkIndexType = 4 ∧ skipped.length = 5)
    (h : StandsAt data 0
      (chunkedHead 0 chunkDims elementSize chunkIndexType ++ (skipped ++ leBytes 8 address))) :
    parse data 8 lengthSize =
      .ok (.chunked ⟨chunkDims ++ [elementSize], some address, 4, some chunkIndexType, none,
        none⟩) := by
  have hbound : (chunkedHead 0 chunkDims elementSize chunkIndexType).length ≤ 1026 :=
    length_chunkedHead_le hrank
  rw [standsAt_append, zero_add] at h
  have hskipped : skipped.length ≤ 5 := by
    rcases htype with ⟨-, rfl⟩ | ⟨-, h⟩ | ⟨-, h⟩ <;> simp_all
  rw [parse_of_chunkedHead hrank hdims (by decide) (by omega) h.1,
    parseIndex_of_standsAt skipped (by simpa using htype) (by omega) haddress h.2, ok_bind]

theorem parse_serializeV4SingleChunk :
    parse (serializeV4SingleChunk chunkDims address none none .eight elementSize) 8 8 =
      .ok (.chunked ⟨chunkDims ++ [elementSize], some address, 4, some 1, none, none⟩) := by
  refine parse_of_standsAt_address hrank hdims haddress [] (by simp) ?_
  simpa [serializeV4SingleChunk, addressField] using standsAt_self _

section

variable {filteredSize filterMask : ℕ} (hsize : filteredSize < 256 ^ 8)
  (hmask : filterMask < 256 ^ 4)
include hsize hmask

theorem parse_of_standsAt_filtered (h : StandsAt data 0 (chunkedHead 2 chunkDims elementSize 1 ++
      (leBytes 8 filteredSize ++ (leBytes 4 filterMask ++ leBytes 8 address)))) :
    parse data 8 8 =
      .ok (.chunked ⟨chunkDims ++ [elementSize], some address, 4, some 1, some filteredSize,
        some filterMask⟩) := by
  have hbound : (chunkedHead 2 chunkDims elementSize 1).length ≤ 1026 := length_chunkedHead_le hrank
  have hle := h.le
  simp only [length_append, length_leBytes] at hle
  simp only [standsAt_append, zero_add, length_leBytes] at h
  obtain ⟨hhead, hFiltered, hMask, hAddress⟩ := h
  rw [parse_of_chunkedHead hrank hdims (by decide) (by decide) hhead]
  simp only [parseIndex]
  rw [ensureLen_bind (by omega) (by omega),
    readOffset_of_standsAt hFiltered hsize (by decide) (by omega),
    leAt_of_standsAt hMask hmask, readAddress_of_standsAt hAddress haddress (by omega)]
  rfl

theorem parse_serializeV4SingleChunk_filtered :
    parse (serializeV4SingleChunk chunkDims address (some filteredSize)
      (some filterMask) .eight elementSize) 8 8 =
      .ok (.chunked ⟨chunkDims ++ [elementSize], some address, 4, some 1, some filteredSize,
        some filterMask⟩) := by
  refine parse_of_standsAt_filtered hrank hdims haddress hsize hmask ?_
  simpa [serializeV4SingleChunk, addressField] using standsAt_self _

end

theorem parse_serializeV4FixedArray {maxBits : ℕ} :
    parse (serializeV4FixedArray chunkDims address .eight elementSize maxBits) 8 8 =
      .ok (.chunked ⟨chunkDims ++ [elementSize], some address, 4, some 3, none, none⟩) := by
  refine parse_of_standsAt_address hrank hdims haddress (leBytes 1 maxBits) (by simp) ?_
  simpa [serializeV4FixedArray, addressField] using standsAt_self _

/-- The message of an extensible array is read back. -/
theorem parse_serializeV4ExtensibleArray :
    parse (serializeV4ExtensibleArray chunkDims address .eight elementSize) 8 8 =
      .ok (.chunked ⟨chunkDims ++ [elementSize], some address, 4, some 4, none, none⟩) := by
  refine parse_of_standsAt_address hrank hdims haddress [32, 4, 4, 16, 10] (by simp) ?_
  simpa [serializeV4ExtensibleArray, addressField] using standsAt_self _

end

theorem parse_serializeV4ExtensibleArray_plane :
    parse (serializeV4ExtensibleArray [4, 300] 4096 .eight 8) 8 8 =
      .ok (.chunked ⟨[4, 300, 8], some 4096, 4, some 4, none, none⟩) :=
  parse_serializeV4ExtensibleArray (by decide) (by decide) (by decide)

end

end ClawHdf5.Format
