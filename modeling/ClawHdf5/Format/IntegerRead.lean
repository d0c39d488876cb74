import ClawHdf5.Format.Datatype

/-!
# Reading integers

The elements of a dataset are read as 64-bit or 32-bit integers. The bytes of an element, put in
order, are a word; the datatype says which of its bits hold the value, and whether they are signed.
The readers choose by their own result whether to extend the sign, not by the datatype, and none
of them refuses a value. They are right exactly on the elements for which that does not matter.
-/

namespace ClawHdf5.Format

open Bytes Fallible Except List Nat

/-! ### The readers -/

/-- The word of an element, its first eight bytes in the given order. The cases of the source for
sizes of one, two, four and eight bytes agree with the general one. -/
def readUnsignedInt (bytes : Bytes) (order : ByteOrder) : ℕ :=
  let buf := bytes.take 8
  ofLeBytes (if order = .bigEndian then buf.reverse else buf)

/-- The field of `precision` bits at `offset`, its sign extended. -/
def extractSigned (full offset precision : ℕ) : ℤ :=
  if precision = 0 ∨ 64 ≤ precision then Int.bmod full (2 ^ 64)
  else
    let field := full / 2 ^ (offset % 64) % 2 ^ precision
    let shift := 64 - precision
    -- shift left, then right as a signed word
    Int.bmod (field * 2 ^ shift : ℕ) (2 ^ 64) / 2 ^ shift

/-- The field of `precision` bits at `offset`. -/
def extractUnsigned (full offset precision : ℕ) : ℤ :=
  if precision = 0 ∨ 64 ≤ precision then full
  else (full / 2 ^ (offset % 64) % 2 ^ precision : ℕ)

namespace Datatype

/-- The bits of a value: their offset and their number. A precision of zero stands for all bits. -/
def fixedBits : Datatype → ℕ × ℕ
  | fixedPoint size _ _ bitOffset bitPrecision =>
    (bitOffset, if bitPrecision = 0 then size * 8 else bitPrecision)
  | _ => (0, 0)

def getByteOrder : Datatype → ByteOrder
  | fixedPoint _ byteOrder .. | floatingPoint _ byteOrder .. => byteOrder
  | _ => .littleEndian

def ensureNumeric (expected : String) : Datatype → Run Unit
  | fixedPoint .. | floatingPoint .. => .ok ()
  | dt => fail (.typeMismatch expected dt.datatypeName)

/-- Integers of `size` bytes that fill them, in little-endian order. -/
def isNative (size : ℕ) (signedOnly : Bool) : Datatype → Bool
  | fixedPoint n .littleEndian signed 0 bitPrecision =>
    n == size && bitPrecision == size * 8 && (!signedOnly || signed)
  | _ => false

end Datatype

/-- The elements of `size` bytes. -/
def elements (size : ℕ) (raw : Bytes) : List Bytes :=
  (range (raw.length / size)).map fun i => (raw.drop (i * size)).take size

/-- Read elements: all at once where the datatype is `native`, and else one by one. An array is
read as its elements. -/
def readIntegers (expected : String) (native : Datatype → Bool) (copied : Bytes → ℤ)
    (extract : ℕ → ℕ → ℕ → ℤ) (raw : Bytes) : Datatype → Run (List ℤ)
  | .array baseType _ => readIntegers expected native copied extract raw baseType
  | dt => do
    dt.ensureNumeric expected
    reject (dt.typeSize = 0 ∨ raw.length % dt.typeSize ≠ 0)
      (.error (.dataSizeMismatch 0 raw.length))
    if native dt then .ok ((elements dt.typeSize raw).map copied)
    else .ok ((elements dt.typeSize raw).map fun chunk =>
      extract (readUnsignedInt chunk dt.getByteOrder) dt.fixedBits.1 dt.fixedBits.2)

def readAsI64 : Bytes → Datatype → Run (List ℤ) :=
  readIntegers "FixedPoint (signed)" (Datatype.isNative 8 true)
    (fun chunk => Int.bmod (ofLeBytes chunk) (2 ^ 64)) extractSigned

def readAsU64 : Bytes → Datatype → Run (List ℤ) :=
  readIntegers "FixedPoint (unsigned)" (fun _ => false) (fun _ => 0) extractUnsigned

def readAsI32 : Bytes → Datatype → Run (List ℤ) :=
  readIntegers "FixedPoint" (Datatype.isNative 4 false)
    (fun chunk => Int.bmod (ofLeBytes chunk) (2 ^ 32))
    fun full offset precision => Int.bmod (extractSigned full offset precision) (2 ^ 32)

/-! ### What the stored bits denote -/

/-- The types that integers are read as. -/
inductive Target
  | i64
  | u64
  | i32

namespace Target

def read : Target → Bytes → Datatype → Run (List ℤ)
  | i64 => readAsI64
  | u64 => readAsU64
  | i32 => readAsI32

/-- The reader without its bulk copy. -/
def readEach : Target → Bytes → Datatype → Run (List ℤ)
  | i64 => readIntegers "FixedPoint (signed)" (fun _ => false) (fun _ => 0) extractSigned
  | u64 => readAsU64
  | i32 => readIntegers "FixedPoint" (fun _ => false) (fun _ => 0)
    fun full offset precision => Int.bmod (extractSigned full offset precision) (2 ^ 32)

/-- The integers of the type. -/
def Holds (v : ℤ) : Target → Prop
  | i64 => -2 ^ 63 ≤ v ∧ v < 2 ^ 63
  | u64 => 0 ≤ v ∧ v < 2 ^ 64
  | i32 => -2 ^ 31 ≤ v ∧ v < 2 ^ 31

end Target

/-- An integer datatype of at most eight bytes whose bits lie within them. -/
structure IntegerType where
  size : ℕ
  bigEndian : Bool
  signed : Bool
  bitOffset : ℕ
  bitPrecision : ℕ
  size_pos : 0 < size
  size_le : size ≤ 8
  within : bitOffset + (if bitPrecision = 0 then size * 8 else bitPrecision) ≤ size * 8

namespace IntegerType

variable (t : IntegerType)

def precision : ℕ := if t.bitPrecision = 0 then t.size * 8 else t.bitPrecision

def byteOrder : ByteOrder := if t.bigEndian then .bigEndian else .littleEndian

def datatype : Datatype := .fixedPoint t.size t.byteOrder t.signed t.bitOffset t.bitPrecision

/-- The bits of an element that hold its value. -/
def field (chunk : Bytes) : ℕ :=
  ofLeBytes (if t.bigEndian then chunk.reverse else chunk) / 2 ^ t.bitOffset % 2 ^ t.precision

/-- The integer that an element denotes: its bits, in two's complement if they are signed. -/
def value (chunk : Bytes) : ℤ :=
  if t.signed ∧ 2 ^ t.precision ≤ 2 * t.field chunk then t.field chunk - 2 ^ t.precision
  else t.field chunk

/-- A read returns the values of all elements, or an error if some value is not one of the target
type; and the bulk copy makes no difference. -/
def Exact (target : Target) (raw : Bytes) : Prop :=
  (∀ xs, target.read raw t.datatype = .ok xs → xs = (elements t.size raw).map t.value) ∧
  ((∃ chunk ∈ elements t.size raw, ¬target.Holds (t.value chunk)) →
    ∃ e, target.read raw t.datatype = .error (.error e)) ∧
  target.read raw t.datatype = target.readEach raw t.datatype

/-- A reader that extends the sign does so rightly: the type is signed, or the value leaves the
highest bit clear. -/
def SignAgrees (target : Target) (v : ℤ) : Prop :=
  target = .u64 ∨ t.signed = true ∨ 2 * v < 2 ^ t.precision

theorem precision_pos : 0 < t.precision := by
  have hsize := t.size_pos
  rw [precision]
  split_ifs <;> omega

theorem within_precision : t.bitOffset + t.precision ≤ t.size * 8 := t.within

variable {t} {raw chunk : Bytes}

theorem field_lt : t.field chunk < 2 ^ t.precision := mod_lt _ (Nat.two_pow_pos _)

theorem length_of_mem_elements (h : chunk ∈ elements t.size raw) : chunk.length = t.size := by
  obtain ⟨i, hi, rfl⟩ := mem_map.mp h
  have hend : (i + 1) * t.size ≤ raw.length :=
    (mul_le_mul_right _ (mem_range.mp hi)).trans (div_mul_le_self _ _)
  rw [succ_mul] at hend
  rw [length_take, length_drop]
  omega

/-- The bits of a number below `2 ^ p`, with the sign extended. -/
theorem bmod_two_pow {p n : ℕ} (hp : 0 < p) (hn : n < 2 ^ p) :
    Int.bmod n (2 ^ p) = if 2 ^ p ≤ 2 * n then (n : ℤ) - 2 ^ p else n := by
  obtain ⟨q, rfl⟩ := Nat.exists_eq_add_of_le' hp
  have hmod : (n : ℤ) % (2 ^ (q + 1) : ℕ) = n := by
    exact_mod_cast mod_eq_of_lt hn
  have hcast : ((2 ^ q : ℕ) : ℤ) = 2 ^ q := cast_pow 2 q
  rw [Int.bmod_def, hmod, pow_succ, pow_succ]
  split_ifs <;> omega

section

variable (hchunk : chunk ∈ elements t.size raw)
include hchunk

theorem readUnsignedInt_eq : readUnsignedInt chunk t.byteOrder =
    ofLeBytes (if t.bigEndian then chunk.reverse else chunk) := by
  have hall : chunk.take 8 = chunk :=
    take_of_length_le ((length_of_mem_elements hchunk).trans_le t.size_le)
  rw [readUnsignedInt, byteOrder, hall]
  cases t.bigEndian <;> rfl

theorem readUnsignedInt_lt : readUnsignedInt chunk t.byteOrder < 2 ^ (t.size * 8) := by
  have hlt := ofLeBytes_lt (if t.bigEndian then chunk.reverse else chunk)
  have hlen : (if t.bigEndian then chunk.reverse else chunk).length = t.size := by
    split_ifs
    · rw [length_reverse, length_of_mem_elements hchunk]
    · exact length_of_mem_elements hchunk
  rw [hlen] at hlt
  rwa [readUnsignedInt_eq hchunk, mul_comm, pow_mul]

theorem extractUnsigned_eq :
    extractUnsigned (readUnsignedInt chunk t.byteOrder) t.bitOffset t.precision =
      t.field chunk := by
  have hwithin := t.within_precision
  have hsize := t.size_le
  have hpos := t.precision_pos
  have hlt := readUnsignedInt_lt hchunk
  rw [extractUnsigned, field, ← readUnsignedInt_eq hchunk]
  split_ifs with hfull
  · -- all 64 bits
    have hoffset : t.bitOffset = 0 := by omega
    have hbits : t.precision = t.size * 8 := by omega
    rw [hoffset, hbits, pow_zero, Nat.div_one, mod_eq_of_lt hlt]
  · rw [mod_eq_of_lt (show t.bitOffset < 64 by omega)]

theorem extractSigned_eq :
    extractSigned (readUnsignedInt chunk t.byteOrder) t.bitOffset t.precision =
      Int.bmod (t.field chunk) (2 ^ t.precision) := by
  have hunsigned := extractUnsigned_eq hchunk
  have hwithin := t.within_precision
  have hsize := t.size_le
  have hpos := t.precision_pos
  rw [extractUnsigned] at hunsigned
  rw [extractSigned]
  split_ifs at hunsigned ⊢ with hfull
  · have hbits : t.precision = 64 := by omega
    rw [hunsigned, hbits]
  · dsimp only
    rw [Int.natCast_inj.mp hunsigned]
    have hpow : 2 ^ 64 = 2 ^ (64 - t.precision) * 2 ^ t.precision := by
      rw [← pow_add, Nat.sub_add_cancel (by omega)]
    have heven : 2 ∣ 2 ^ t.precision := dvd_pow_self 2 hpos.ne'
    have hne : (2 : ℤ) ^ (64 - t.precision) ≠ 0 := pow_ne_zero _ two_ne_zero
    rw [hpow, mul_comm, cast_mul, Int.mod_bmod_mul_of_pos _ _ (Nat.two_pow_pos _) heven,
      cast_pow, cast_two, Int.mul_ediv_cancel_left _ hne]

end

/-- What a reader makes of an element. -/
def got (t : IntegerType) (chunk : Bytes) : Target → ℤ
  | .i64 => Int.bmod (t.field chunk) (2 ^ t.precision)
  | .u64 => t.field chunk
  | .i32 => Int.bmod (Int.bmod (t.field chunk) (2 ^ t.precision)) (2 ^ 32)

/-- A reader is right about an element exactly if its type holds the value and the sign agrees. -/
theorem got_eq_value_iff (target : Target) : t.got chunk target = t.value chunk ↔
      target.Holds (t.value chunk) ∧ t.SignAgrees target (t.value chunk) := by
  have hpos := t.precision_pos
  have hwithin := t.within_precision
  have hsize := t.size_le
  have hlt := @field_lt t chunk
  have hle : 2 ^ t.precision ≤ 2 ^ 64 := Nat.pow_le_pow_right two_pos (by omega)
  have hcast : ((2 ^ t.precision : ℕ) : ℤ) = 2 ^ t.precision := cast_pow 2 _
  have hextended := bmod_two_pow hpos hlt
  have hvalue : t.value chunk = if t.signed = true then Int.bmod (t.field chunk) (2 ^ t.precision)
      else t.field chunk := by
    rw [value, hextended]
    cases t.signed <;> simp
  cases target with
  | i64 =>
    simp only [got, Target.Holds, SignAgrees, hvalue]
    cases t.signed <;> split_ifs at hextended <;> simp <;> omega
  | u64 =>
    simp only [got, Target.Holds, SignAgrees]
    cases t.signed <;> split_ifs at hextended <;> simp <;> omega
  | i32 =>
    simp only [got, Target.Holds, SignAgrees, hvalue]
    generalize hword : Int.bmod (Int.bmod (t.field chunk) (2 ^ t.precision)) (2 ^ 32) = word
    have hrange : -2 ^ 31 ≤ word ∧ word < 2 ^ 31 := by
      rw [← hword]
      exact ⟨Int.le_bmod (by decide), Int.bmod_lt (by decide)⟩
    have hself := @Int.bmod_eq_of_le (Int.bmod (t.field chunk) (2 ^ t.precision)) (2 ^ 32)
    -- the sign bit is one of the low 32, or the field is too large
    have hbits : 2 ^ t.precision ≤ 2 ^ 32 ∨ 2 ^ 33 ≤ 2 ^ t.precision := by
      rcases lt_or_ge 32 t.precision with hlarge | hsmall
      · exact .inr (Nat.pow_le_pow_right two_pos hlarge)
      · exact .inl (Nat.pow_le_pow_right two_pos hsmall)
    cases t.signed <;> split_ifs at hextended <;> simp <;> omega

theorem readIntegers_eq (expected : String) (native : Datatype → Bool) (copied : Bytes → ℤ)
    (extract : ℕ → ℕ → ℕ → ℤ) (hraw : t.size ∣ raw.length) :
    readIntegers expected native copied extract raw t.datatype =
      .ok ((elements t.size raw).map fun chunk => if native t.datatype then copied chunk
        else extract (readUnsignedInt chunk t.byteOrder) t.bitOffset t.precision) := by
  have hsize : ¬(t.size = 0 ∨ raw.length % t.size ≠ 0) := by
    have hpos := t.size_pos
    omega
  rw [datatype, readIntegers]
  · rw [Datatype.ensureNumeric, Datatype.typeSize, reject_bind hsize]
    split_ifs <;> rfl
  · rintro _ _ ⟨⟩

/-- The bytes of a native element are its bits. -/
theorem field_of_isNative {size : ℕ} {signedOnly : Bool}
    (h : t.datatype.isNative size signedOnly = true) (hchunk : chunk ∈ elements t.size raw) :
    t.precision = size * 8 ∧ t.field chunk = ofLeBytes chunk := by
  unfold datatype Datatype.isNative at h
  split at h
  · next heq =>
    simp only [Datatype.fixedPoint.injEq, Bool.and_eq_true, beq_iff_eq] at heq h
    have hpos := t.size_pos
    have hprecision : t.precision = size * 8 := by
      rw [precision, heq.2.2.2.2, h.1.2, if_neg (by omega)]
    have hlittle : t.bigEndian = false := by
      cases hbig : t.bigEndian with
      | false => rfl
      | true => simp [byteOrder, hbig] at heq
    have hlt := readUnsignedInt_lt hchunk
    rw [readUnsignedInt_eq hchunk, heq.1, h.1.1, ← hprecision] at hlt
    rw [field, heq.2.2.2.1, pow_zero, Nat.div_one, mod_eq_of_lt hlt, hlittle]
    exact ⟨hprecision, rfl⟩
  · cases h

/-- Every read returns, and copying elements in bulk makes no difference. -/
theorem read_eq (target : Target) (hraw : t.size ∣ raw.length) :
    target.read raw t.datatype = .ok ((elements t.size raw).map fun chunk => t.got chunk target) ∧
      target.readEach raw t.datatype = target.read raw t.datatype := by
  have hread : target.read raw t.datatype =
      .ok ((elements t.size raw).map fun chunk => t.got chunk target) := by
    cases target with
    | i64 =>
      rw [Target.read, readAsI64, readIntegers_eq _ _ _ _ hraw]
      refine congrArg ok (map_congr_left fun chunk hchunk => ?_)
      split_ifs with hnative
      · have hfield := field_of_isNative hnative hchunk
        have hprecision : t.precision = 64 := hfield.1
        rw [got, hprecision, hfield.2]
      · exact extractSigned_eq hchunk
    | u64 =>
      rw [Target.read, readAsU64, readIntegers_eq _ _ _ _ hraw]
      exact congrArg ok (map_congr_left fun chunk hchunk => extractUnsigned_eq hchunk)
    | i32 =>
      rw [Target.read, readAsI32, readIntegers_eq _ _ _ _ hraw]
      refine congrArg ok (map_congr_left fun chunk hchunk => ?_)
      split_ifs with hnative
      · have hfield := field_of_isNative hnative hchunk
        have hprecision : t.precision = 32 := hfield.1
        rw [got, hprecision, hfield.2, Int.bmod_bmod]
      · rw [extractSigned_eq hchunk, got]
  refine ⟨hread, ?_⟩
  rw [hread]
  cases target with
  | u64 => exact hread
  | _ =>
    rw [Target.readEach, readIntegers_eq _ _ _ _ hraw]
    refine congrArg ok (map_congr_left fun chunk hchunk => ?_)
    rw [if_neg Bool.false_ne_true, extractSigned_eq hchunk, got]

/-- A read is exact exactly if its type holds the value of every element and does not take an
unsigned value for a negative one. -/
theorem readIntegers_exact_iff (t : IntegerType) (target : Target) (raw : Bytes)
    (hraw : t.size ∣ raw.length) :
    t.Exact target raw ↔ ∀ chunk ∈ elements t.size raw,
      target.Holds (t.value chunk) ∧ t.SignAgrees target (t.value chunk) := by
  have hread := read_eq target hraw
  constructor
  · intro hexact chunk hchunk
    exact (got_eq_value_iff target).mp (map_inj_left.mp (hexact.1 _ hread.1) chunk hchunk)
  · intro hright
    refine ⟨fun xs hxs => ?_, fun houtside => ?_, hread.2.symm⟩
    · rw [← ok.inj (hread.1.symm.trans hxs)]
      exact map_congr_left fun chunk hchunk =>
        (got_eq_value_iff target).mpr (hright chunk hchunk)
    · obtain ⟨chunk, hchunk, hnot⟩ := houtside
      exact absurd (hright chunk hchunk).1 hnot

/-- A signed integer of two bytes, the higher one first. -/
def signedWord : IntegerType := ⟨2, true, true, 0, 16, Nat.two_pos, Nat.le_add_left 2 6, by decide⟩

/-- The words `-123` and 258. -/
theorem readIntegers_exact_signedWord : signedWord.Exact .i64 [0xff, 0x85, 0x01, 0x02] := by
  refine (readIntegers_exact_iff signedWord .i64 _ (by decide)).mpr fun chunk hchunk => ?_
  have hmem : chunk ∈ [[0xff, 0x85], [0x01, 0x02]] := hchunk
  rcases mem_pair.mp hmem with rfl | rfl <;>
    exact ⟨by rw [Target.Holds]; decide, .inr (.inl rfl)⟩

/-- An unsigned byte. -/
def unsignedByte : IntegerType := ⟨1, false, false, 0, 8, Nat.one_pos, Nat.succ_pos 7, by decide⟩

/-- The unsigned byte 255 is read as `-1`. -/
theorem readIntegers_negative : ¬unsignedByte.Exact .i64 [255] := fun h =>
  absurd (h.1 _ (read_eq .i64 (by decide)).1) (by decide)

end IntegerType

end ClawHdf5.Format
