import ClawHdf5.Math.Bytes
import ClawHdf5.Math.Fallible
import ClawHdf5.Math.Region

/-!
# Reading a file's bytes

The functions by which the readers of the format take fields out of a byte slice. Positions and
sizes are natural numbers; a `usize` sum that the source does not check wraps at `2 ^ 64`, and an
access past the end of a slice panics.
-/

namespace ClawHdf5.Format

open Bytes Fallible

inductive FormatError
  | unexpectedEof (expected available : ℕ)
  | invalidOffsetSize (size : ℕ)
  | invalidLayoutVersion (version : ℕ)
  | invalidLayoutClass (layoutClass : ℕ)
  | invalidBTreeSignature
  | invalidBTreeNodeType (nodeType : ℕ)
  | invalidFilterPipelineVersion (version : ℕ)
  | unsupportedFilter (filterId : ℕ)
  | filterError (message : String)
  | fletcher32Mismatch (expected computed : UInt32)
  | compressionError (message : String)
  | decompressionError (message : String)
  | chunkedReadError (message : String)
  | nestingDepthExceeded
  | overflow (message : String)
  | noDataAllocated
  | dataSizeMismatch (expected actual : ℕ)
  | checksumMismatch (expected computed : ℕ)
  | invalidFractalHeapSignature
  | invalidFractalHeapVersion (version : ℕ)
  | invalidHeapIdType (idType : ℕ)
  | invalidBTreeV2Signature
  | invalidBTreeV2Version (version : ℕ)
  | invalidObjectHeaderVersion (version : ℕ)
  | invalidObjectHeaderSignature
  | unsupportedMessage (id : ℕ)
  | invalidLengthSize (size : ℕ)
  | invalidCharacterSet (charset : ℕ)
  | typeMismatch (expected actual : String)
  | invalidLinkVersion (version : ℕ)
  | invalidLinkType (linkType : ℕ)
  | invalidGlobalHeapSignature
  | invalidGlobalHeapVersion (version : ℕ)
  | globalHeapObjectNotFound (collectionAddress index : ℕ)
  | duplicateDatasetName (name : String)
  deriving DecidableEq

/-- Code that may return an error or panic. -/
abbrev Run (α : Type) := Except (Halt FormatError) α

def fail {α : Type} (e : FormatError) : Run α := .error (.error e)

/-- A `usize` sum or product that is not checked for overflow. -/
def wrap (n : ℕ) : ℕ := n % 2 ^ 64

theorem wrap_of_lt {n : ℕ} (h : n < 2 ^ 64) : wrap n = n := Nat.mod_eq_of_lt h

/-! ### Slices -/

/-- The bytes from `a` up to `b`. -/
def slice (data : Bytes) (a b : ℕ) : Run Bytes :=
  if a ≤ b ∧ b ≤ data.length then .ok ((data.drop a).take (b - a)) else .error .panic

def sliceFrom (data : Bytes) (a : ℕ) : Run Bytes :=
  if a ≤ data.length then .ok (data.drop a) else .error .panic

def byteAt (data : Bytes) (pos : ℕ) : Run ℕ := UInt8.toNat <$> index data pos

def leAt (data : Bytes) (pos width : ℕ) : Run ℕ :=
  ofLeBytes <$> slice data pos (pos + width)

/-! ### Field readers -/

def ensureLen (data : Bytes) (offset needed : ℕ) : Run Unit :=
  reject (2 ^ 64 ≤ offset + needed ∨ data.length < offset + needed)
    (.error (.unexpectedEof (min (offset + needed) (2 ^ 64 - 1)) data.length))

def readOffset (data : Bytes) (pos size : ℕ) : Run ℕ := do
  ensureLen data pos size
  let field ← slice data pos (pos + size)
  if size = 2 ∨ size = 4 ∨ size = 8 then .ok (ofLeBytes field)
  else fail (.invalidOffsetSize size)

/-- A little-endian field of `width` bytes, if the data reaches that far. -/
def readField (data : Bytes) (pos width : ℕ) : Run ℕ := do
  ensureLen data pos width
  leAt data pos width

/-- Whether the field at `pos` is the undefined address, all bits set. -/
def isUndefined (data : Bytes) (pos size : ℕ) : Run Bool :=
  if data.length < wrap (pos + size) then .ok false
  else do
    let field ← slice data pos (wrap (pos + size))
    .ok (field.all (· == 0xff))

/-- An optional address: `none` when it is undefined. -/
def readAddress (data : Bytes) (pos size : ℕ) : Run (Option ℕ) := do
  if ← isUndefined data pos size then .ok none
  else some <$> readOffset data pos size

variable {data bs : Bytes} {pos n w : ℕ}

theorem length_of_slice {a b : ℕ} (h : slice data a b = .ok bs) : bs.length = b - a := by
  rw [slice] at h
  split_ifs at h with hbounds
  cases h
  rw [List.length_take, List.length_drop]
  omega

theorem lt_of_leAt (h : leAt data pos w = .ok n) : n < 256 ^ w := by
  obtain ⟨field, hfield, rfl⟩ := exists_ok_of_map_eq h
  have hlen := length_of_slice hfield
  rw [Nat.add_sub_cancel_left] at hlen
  exact hlen ▸ ofLeBytes_lt field

/-! ### Reading fields where they stand -/

theorem slice_of_standsAt (h : StandsAt data pos bs) :
    slice data pos (pos + bs.length) = .ok bs := by
  rw [slice, if_pos ⟨le_self_add, h.le⟩, Nat.add_sub_cancel_left, h.take_drop]

theorem sliceFrom_of_standsAt (h : StandsAt data pos bs) :
    sliceFrom data pos = .ok (data.drop pos) ∧ StandsAt (data.drop pos) 0 bs := by
  obtain ⟨after, hdrop⟩ := h.drop_eq
  have hle := h.le
  exact ⟨if_pos (by omega), [], after, hdrop, rfl⟩

theorem byteAt_of_standsAt {b : UInt8} (h : StandsAt data pos [b]) :
    byteAt data pos = .ok b.toNat := by
  have hb : data[pos]? = some b := h.getElem?_add (by simp : 0 < [b].length)
  rw [byteAt, index_eq_ok.mpr hb]
  rfl

theorem byteAt_of_standsAt_leBytes (h : StandsAt data pos (leBytes 1 n)) (hn : n < 256) :
    byteAt data pos = .ok n := by
  have hbyte := byteAt_of_standsAt h
  rwa [UInt8.toNat_ofNat_of_lt' hn] at hbyte

theorem byteAt_bind {α : Type} (h : StandsAt data pos (leBytes 1 n)) (hn : n < 256)
    (rest : ℕ → Run α) : (byteAt data pos >>= rest) = rest n := by
  rw [byteAt_of_standsAt_leBytes h hn, ok_bind]

theorem leAt_of_standsAt_mod (h : StandsAt data pos (leBytes w n)) :
    leAt data pos w = .ok (n % 256 ^ w) := by
  have hslice := slice_of_standsAt h
  rw [length_leBytes] at hslice
  rw [leAt, hslice]
  show Except.ok _ = _
  rw [ofLeBytes_leBytes]

theorem leAt_of_standsAt (h : StandsAt data pos (leBytes w n)) (hn : n < 256 ^ w) :
    leAt data pos w = .ok n := by
  rw [leAt_of_standsAt_mod h, Nat.mod_eq_of_lt hn]

theorem ensureLen_of_le (h : pos + n ≤ data.length) (hlt : pos + n < 2 ^ 64) :
    ensureLen data pos n = .ok () := by
  rw [ensureLen, reject_eq_ok]
  omega

theorem ensureLen_bind {α : Type} (h : pos + n ≤ data.length) (hlt : pos + n < 2 ^ 64)
    (rest : Unit → Run α) : (ensureLen data pos n >>= rest) = rest () := by
  rw [ensureLen_of_le h hlt, ok_bind]

section

variable (h : StandsAt data pos (leBytes w n))
include h

theorem readField_of_standsAt (hlt : pos + w < 2 ^ 64) :
    readField data pos w = .ok (n % 256 ^ w) := by
  have hle := h.le
  rw [length_leBytes] at hle
  rw [readField, ensureLen_bind hle hlt, leAt_of_standsAt_mod h]

theorem readOffset_of_standsAt_mod (hw : w = 2 ∨ w = 4 ∨ w = 8) (hlt : pos + w < 2 ^ 64) :
    readOffset data pos w = .ok (n % 256 ^ w) := by
  have hle := h.le
  have hslice := slice_of_standsAt h
  rw [length_leBytes] at hle hslice
  rw [readOffset, ensureLen_bind hle hlt, hslice, ok_bind, if_pos hw, ofLeBytes_leBytes]

theorem readOffset_of_standsAt (hn : n < 256 ^ w) (hw : w = 2 ∨ w = 4 ∨ w = 8)
    (hlt : pos + w < 2 ^ 64) : readOffset data pos w = .ok n := by
  rw [readOffset_of_standsAt_mod h hw hlt, Nat.mod_eq_of_lt hn]

end

theorem isUndefined_of_standsAt (h : StandsAt data pos bs) (hlt : pos + bs.length < 2 ^ 64) :
    isUndefined data pos bs.length = .ok (bs.all (· == 0xff)) := by
  have hle := h.le
  rw [isUndefined, wrap_of_lt hlt, if_neg (by omega), slice_of_standsAt h, ok_bind]

/-- The field of an address below the largest word is not the undefined address. -/
theorem leBytes_all_ff_iff (w n : ℕ) (hn : n < 256 ^ w) :
    (leBytes w n).all (· == 0xff) = true ↔ n + 1 = 256 ^ w := by
  induction w generalizing n with
  | zero => simp [leBytes]; simpa using hn
  | succ w ih =>
    have hdiv : n / 256 < 256 ^ w := Nat.div_lt_of_lt_mul (by rwa [← pow_succ'])
    have hbyte : UInt8.ofNat n = 0xff ↔ n % 256 = 255 := by
      rw [← UInt8.toNat_inj]
      simp
    rw [leBytes, List.all_cons, Bool.and_eq_true, ih _ hdiv, beq_iff_eq, hbyte]
    omega

theorem isUndefined_address_of_standsAt (h : StandsAt data pos (leBytes 8 n)) (hn : n < 2 ^ 64)
    (hlt : pos + 8 < 2 ^ 64) : isUndefined data pos 8 = .ok (decide (n = 2 ^ 64 - 1)) := by
  have hundef := isUndefined_of_standsAt h (by rwa [length_leBytes])
  have hall : (leBytes 8 n).all (· == 0xff) = decide (n = 2 ^ 64 - 1) := by
    rw [Bool.eq_iff_iff, leBytes_all_ff_iff 8 n hn, decide_eq_true_iff]
    omega
  rwa [hall] at hundef

theorem readAddress_of_standsAt (h : StandsAt data pos (leBytes 8 n)) (hn : n < 2 ^ 64 - 1)
    (hlt : pos + 8 < 2 ^ 64) : readAddress data pos 8 = .ok (some n) := by
  rw [readAddress, isUndefined_address_of_standsAt h (by omega) hlt, decide_eq_false (by omega),
    readOffset_of_standsAt h (by omega) (by decide) hlt]
  rfl

end ClawHdf5.Format
