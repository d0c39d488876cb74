import ClawHdf5.Format.ChunkedRead
import ClawHdf5.Math.PanicFree

/-!
# Reading at addresses from the file

The readers add a size to an address they found in the file and compare the sum with the length of
the file. The sum is not checked. Where it wraps around to a position within the file the test
passes, and the access behind it is out of range.
-/

namespace ClawHdf5.Format

open Fallible

/-! ### Contiguous data -/

/-- The size of a dataset. The number of elements may wrap around, its product with the size of an
element may not. -/
def expectedSize (dataspace : Dataspace) (elemSize : ℕ) : Run ℕ := do
  let numElements := wrap dataspace.numElements
  reject (2 ^ 64 ≤ numElements * elemSize)
    (.error (.overflow s!"num_elements({numElements}) * elem_size({elemSize})"))
  .ok (numElements * elemSize)

def readContiguous (fileData : Bytes) (address : Option ℕ) (size expectedSize : ℕ) : Run Bytes := do
  let addr ← okOr (.error .noDataAllocated) address
  reject (size ≠ expectedSize) (.error (.dataSizeMismatch expectedSize size))
  reject (fileData.length < wrap (addr + size))
    (.error (.unexpectedEof (wrap (addr + size)) fileData.length))
  slice fileData addr (wrap (addr + size))

/-- The bytes of a contiguous dataset where they stand in the file. -/
def readRawDataZerocopy (fileData : Bytes) (layout : DataLayout) (dataspace : Dataspace)
    (elemSize : ℕ) : Run (Option Bytes) := do
  let expected ← expectedSize dataspace elemSize
  match layout with
  | .contiguous address size => some <$> readContiguous fileData address size expected
  | _ => .ok none

section

variable (decompressChunk : Bytes → FilterPipeline → ℕ → ℕ → Run Bytes)
  (readVirtualData : Bytes → Option ℕ → ℕ → Dataspace → ℕ → ℕ → ℕ → Run Bytes)

/-- The bytes of a dataset. The reader of virtual datasets is a parameter. -/
def readRawDataFullImpl (fileData : Bytes) (layout : DataLayout) (dataspace : Dataspace)
    (elemSize : ℕ) (pipeline : Option FilterPipeline) (offsetSize lengthSize : ℕ) : Run Bytes := do
  let expected ← expectedSize dataspace elemSize
  match layout with
  | .compact data =>
    reject (data.length ≠ expected) (.error (.dataSizeMismatch expected data.length))
    .ok data
  | .contiguous address size => readContiguous fileData address size expected
  | .chunked _ =>
    readChunkedData decompressChunk fileData layout dataspace elemSize pipeline offsetSize
      lengthSize
  | .virtual heapAddress heapIndex =>
    readVirtualData fileData heapAddress heapIndex dataspace elemSize offsetSize lengthSize

end

/-! ### When the readers return -/

/-- The sum of an address and a size exceeds 64 bits, and what is left of it is a position within
the file. -/
def WrapsInto (fileData : Bytes) (address size : ℕ) : Prop :=
  2 ^ 64 ≤ address + size ∧ address + size - 2 ^ 64 ≤ fileData.length
  deriving Decidable

section

variable {data : Bytes} {pos size address : ℕ}

/-- A sum of two 64-bit numbers is itself, or loses `2 ^ 64`. -/
theorem wrap_add_cases (haddress : address < 2 ^ 64) (hsize : size < 2 ^ 64) :
    address + size < 2 ^ 64 ∧ wrap (address + size) = address + size ∨
      2 ^ 64 ≤ address + size ∧ wrap (address + size) = address + size - 2 ^ 64 := by
  unfold wrap
  omega

theorem returns_slice_iff {a b : ℕ} : Returns (slice data a b) ↔ a ≤ b ∧ b ≤ data.length := by
  unfold slice
  split_ifs with h
  · exact iff_of_true (returns_ok _) h
  · exact iff_of_false not_returns_panic h

theorem returns_sliceFrom_iff {a : ℕ} : Returns (sliceFrom data a) ↔ a ≤ data.length := by
  unfold sliceFrom
  split_ifs with h
  · exact iff_of_true (returns_ok _) h
  · exact iff_of_false not_returns_panic h

theorem sliceFrom_eq_ok {a : ℕ} {bs : Bytes} :
    sliceFrom data a = .ok bs ↔ a ≤ data.length ∧ bs = data.drop a := by
  unfold sliceFrom
  split_ifs with h
  · simp [h, eq_comm]
  · simp [h]

theorem returns_byteAt (h : pos < data.length) : Returns (byteAt data pos) :=
  returns_map.mpr (returns_index h)

theorem returns_readOffset : Returns (readOffset data pos size) := by
  refine returns_reject_bind.mpr fun h => ?_
  rw [not_or, not_lt] at h
  refine returns_bind.mpr ⟨returns_slice_iff.mpr ⟨le_self_add, h.2⟩, fun field _ => ?_⟩
  split_ifs
  · exact returns_ok _
  · exact returns_error _

/-- A reader that tests the unchecked sum and then takes the rest of the file returns, unless the
sum wraps around into the file. -/
theorem returns_header_iff {α : Type} {rest : Bytes → Run α} (hfile : data.length < 2 ^ 63)
    (haddress : address < 2 ^ 64) (hsize : size < 2 ^ 63)
    (hrest : ∀ d : Bytes, size ≤ d.length → Returns (rest d)) :
    Returns (do
      reject (data.length < wrap (address + size))
        (.error (.unexpectedEof (wrap (address + size)) data.length))
      let d ← sliceFrom data address
      rest d) ↔ ¬WrapsInto data address size := by
  rw [returns_reject_bind, returns_bind, returns_sliceFrom_iff]
  unfold WrapsInto
  have hsize' : size < 2 ^ 64 := by omega
  rcases wrap_add_cases haddress hsize' with ⟨hlt, hwrap⟩ | ⟨hle, hwrap⟩
  · -- the sum is the end of the range: what the test lets pass lies in the file
    refine iff_of_true (fun h => ⟨by omega, fun d hd => hrest d ?_⟩) (by omega)
    obtain ⟨hstart, rfl⟩ := sliceFrom_eq_ok.mp hd
    rw [List.length_drop]
    omega
  · -- the address itself is past the end of every file
    constructor
    · intro h hwraps
      omega
    · intro h hpass
      omega

section

variable {offsetSize lengthSize : ℕ} (hfile : data.length < 2 ^ 63) (haddress : address < 2 ^ 64)
  (hoffset : offsetSize < 256) (hlength : lengthSize < 256)
include hfile haddress hoffset hlength

/-- The fixed array header is read with a value or an error, unless its end wraps around into the
file. -/
theorem returns_fixedArrayHeader_iff :
    Returns (FixedArrayHeader.parse data address offsetSize lengthSize) ↔
      ¬WrapsInto data address (12 + lengthSize + offsetSize) := by
  have hsize : 4 + 1 + 1 + 1 + 1 + lengthSize + offsetSize + 4 = 12 + lengthSize + offsetSize := by
    omega
  rw [← hsize]
  refine returns_header_iff hfile haddress (by omega) fun d hd => ?_
  have hbyte {k : ℕ} (hk : k < 8) : Returns (byteAt d k) := returns_byteAt (by omega)
  refine returns_bind.mpr ⟨returns_slice_iff.mpr (by omega), fun _ _ => ?_⟩
  refine returns_reject_bind.mpr fun _ => ?_
  refine returns_bind.mpr ⟨hbyte (by omega), fun _ _ => returns_reject_bind.mpr fun _ => ?_⟩
  iterate 3 refine returns_bind.mpr ⟨hbyte (by omega), fun _ _ => ?_⟩
  iterate 2 refine returns_bind.mpr ⟨returns_readOffset, fun _ _ => ?_⟩
  exact returns_ok _

/-- The extensible array header is read with a value or an error, unless its end wraps around into
the file. -/
theorem returns_extensibleArrayHeader_iff :
    Returns (ExtensibleArrayHeader.parse data address offsetSize lengthSize) ↔
      ¬WrapsInto data address (16 + 6 * lengthSize + offsetSize) := by
  have hsize : 4 + 1 + 1 + 1 + 1 + 1 + 1 + 1 + 1 + 6 * lengthSize + offsetSize + 4 =
      16 + 6 * lengthSize + offsetSize := by
    omega
  rw [← hsize]
  refine returns_header_iff hfile haddress (by omega) fun d hd => ?_
  have hbyte {k : ℕ} (hk : k < 12) : Returns (byteAt d k) := returns_byteAt (by omega)
  refine returns_bind.mpr ⟨returns_slice_iff.mpr (by omega), fun _ _ => ?_⟩
  refine returns_reject_bind.mpr fun _ => ?_
  refine returns_bind.mpr ⟨hbyte (by omega), fun _ _ => returns_reject_bind.mpr fun _ => ?_⟩
  iterate 7 refine returns_bind.mpr ⟨hbyte (by omega), fun _ _ => ?_⟩
  iterate 2 refine returns_bind.mpr ⟨returns_readOffset, fun _ _ => ?_⟩
  exact returns_ok _

end

/-- The range of a slice is tested before the access. The slice is within the file, unless its end
wraps around into it. -/
theorem returns_tested_slice_iff (haddress : address < 2 ^ 64) (hsize : size < 2 ^ 64) :
    (¬data.length < wrap (address + size) → Returns (slice data address (wrap (address + size)))) ↔
      ¬WrapsInto data address size := by
  unfold WrapsInto
  rw [returns_slice_iff]
  rcases wrap_add_cases haddress hsize with ⟨hlt, hwrap⟩ | ⟨hle, hwrap⟩
  · rw [hwrap]
    omega
  · rw [hwrap]
    omega

/-- The size in a contiguous layout is the one of the dataset. -/
def HasSize (dataspace : Dataspace) (elemSize size : ℕ) : Prop :=
  wrap dataspace.numElements * elemSize < 2 ^ 64 ∧ size = wrap dataspace.numElements * elemSize

theorem returns_readContiguous_some_iff {dataspace : Dataspace} {elemSize : ℕ}
    (haddress : address < 2 ^ 64) (hsize : size < 2 ^ 64) :
    Returns (do
      let expected ← expectedSize dataspace elemSize
      readContiguous data (some address) size expected) ↔
      ¬(HasSize dataspace elemSize size ∧ WrapsInto data address size) := by
  unfold HasSize
  by_cases hover : 2 ^ 64 ≤ wrap dataspace.numElements * elemSize
  · have hfail : expectedSize dataspace elemSize = .error (.error (.overflow
        s!"num_elements({wrap dataspace.numElements}) * elem_size({elemSize})")) := by
      rw [expectedSize, reject, if_pos hover]
      rfl
    rw [hfail]
    exact iff_of_true (returns_error _) (by omega)
  · have hexpected : expectedSize dataspace elemSize =
        .ok (wrap dataspace.numElements * elemSize) := by
      rw [expectedSize, reject_of_not hover]
      rfl
    rw [hexpected, ok_bind, readContiguous, okOr, ok_bind, returns_reject_bind,
      returns_reject_bind, returns_tested_slice_iff haddress hsize]
    rw [not_le] at hover
    constructor
    · intro h hboth
      exact h (not_not.mpr hboth.1.2) hboth.2
    · intro h heq hwraps
      exact h ⟨⟨hover, not_not.mp heq⟩, hwraps⟩

/-- Reading contiguous data returns a value or an error, unless there is an address, the size is the
right one and the end wraps around into the file. -/
theorem returns_readContiguous_iff {address : Option ℕ} {dataspace : Dataspace} {elemSize : ℕ}
    (haddress : ∀ a ∈ address, a < 2 ^ 64) (hsize : size < 2 ^ 64) :
    Returns (do
      let expected ← expectedSize dataspace elemSize
      readContiguous data address size expected) ↔
      ∀ a ∈ address, ¬(HasSize dataspace elemSize size ∧ WrapsInto data a size) := by
  cases address with
  | some a =>
    rw [returns_readContiguous_some_iff (haddress a rfl) hsize]
    simp only [Option.mem_some_iff, forall_eq']
  | none =>
    refine iff_of_true (returns_bind.mpr ⟨?_, fun _ _ => returns_error _⟩) nofun
    exact returns_reject_bind.mpr fun _ => returns_ok _

end

end ClawHdf5.Format
