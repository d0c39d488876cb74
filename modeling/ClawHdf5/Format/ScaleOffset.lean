import ClawHdf5.Format.FilterPipeline
import ClawHdf5.Math.BitStream
import ClawHdf5.Math.MachineInt
import ClawHdf5.Math.TwosComplement

/-!
# The scale-offset filter

A chunk is stored as a minimum and, for each element, the bits of its distance from the minimum.
For floating-point elements the distance is scaled by a power of ten or two. The code with all bits
set stands for the fill value, if there is one.

Integers are kept as the words of their bits. The operations on floating-point numbers enter as
functions.
-/

namespace ClawHdf5.Format

open Bytes Fallible BitStream TwosComplement WordBits List UInt64 Nat

/-! ### Floating-point elements -/

/-- Operations on 64-bit floating-point numbers, and their conversions. -/
structure FloatOps where
  F64 : Type
  ofBits32 : UInt32 → F64
  ofBits64 : UInt64 → F64
  toBits32 : F64 → UInt32
  toBits64 : F64 → UInt64
  ofWord : UInt64 → F64
  powi : (base : ℕ) → (exponent : ℤ) → F64
  add : F64 → F64 → F64
  mul : F64 → F64 → F64
  div : F64 → F64 → F64

def FloatOps.machine : FloatOps where
  F64 := Float
  ofBits32 bits := (Float32.ofBits bits).toFloat
  ofBits64 := Float.ofBits
  toBits32 x := x.toFloat32.toBits
  toBits64 := Float.toBits
  ofWord := UInt64.toFloat
  powi base exponent := Float.pow (Float.ofNat base) (Float.ofInt exponent)
  add := Float.add
  mul := Float.mul
  div := Float.div

/-- A float of `size` bytes at the front of `bytes`, which are padded with zeros. -/
def readLeFloat (ops : FloatOps) (bytes : Bytes) (size : ℕ) : ops.F64 :=
  if size = 4 then ops.ofBits32 (ofLe32 (bytes.take 4)) else ops.ofBits64 (ofLe64 (bytes.take 8))

/-- The float of `size` bytes that the low bits of a word are. -/
def bitsToFloat (ops : FloatOps) (raw : UInt64) (size : ℕ) : ops.F64 :=
  if size = 4 then ops.ofBits32 raw.toUInt32 else ops.ofBits64 raw

/-- The first `elemSize` of some bytes, in the given byte order. -/
def orderBytes (le : Bytes) (elemSize : ℕ) (bigEndian : Bool) : Bytes :=
  if bigEndian then (le.take elemSize).reverse else le.take elemSize

def writeFloats (ops : FloatOps) (values : List ops.F64) (elemSize : ℕ) (bigEndian : Bool) :
    Bytes :=
  values.flatMap fun v =>
    let bytes := if elemSize = 4 then le32 (ops.toBits32 v) ++ replicate 4 0
      else le64 (ops.toBits64 v)
    orderBytes bytes elemSize bigEndian

/-! ### Integer elements -/

/-- The low `size` bytes of a word as an integer. -/
def signExtend (raw : UInt64) (size : ℕ) (signed : Bool) : UInt64 :=
  if size = 0 ∨ 8 ≤ size then raw
  else
    let bits := size * 8
    let mask := (1 <<< UInt64.ofNat bits) - 1
    let val := raw &&& mask
    if signed && (val &&& (1 <<< UInt64.ofNat (bits - 1))) != 0 then val ||| ~~~mask else val

/-- A little-endian integer of at most eight bytes. -/
def readLeInt (bytes : Bytes) (signed : Bool) : UInt64 :=
  let raw := (bytes.take 8).zipIdx.foldl
    (fun raw byte => raw ||| (byte.1.toUInt64 <<< UInt64.ofNat (byte.2 * 8))) 0
  signExtend raw (min bytes.length 8) signed

/-- The low bytes of a word determine the integer that fits into them. -/
theorem signExtend_eq {raw : UInt64} {size : ℕ} {signed : Bool} {x : ℤ} (hpos : 0 < size)
    (hsize : size ≤ 8) (hraw : (raw.toNat : ℤ) % 256 ^ size = x % 256 ^ size)
    (hx : FitsIn signed size x) : signExtend raw size signed = ofInt x := by
  rw [signExtend]
  by_cases h : size < 8
  · rw [if_neg (by omega)]
    exact extendSign_eq hpos h hraw hx
  · obtain rfl : size = 8 := by omega
    have hlt : (raw.toNat : ℤ) < 256 ^ 8 := by exact_mod_cast raw.toNat_lt
    rw [eq_ofInt_iff]
    rwa [Int.emod_eq_of_lt (Int.natCast_nonneg _) hlt] at hraw

/-- The loop that collects the bytes of an integer, from byte `k` on. -/
theorem toNat_foldl_or (bytes : Bytes) {k : ℕ} {acc : UInt64} (hacc : acc.toNat < 256 ^ k)
    (hlen : k + bytes.length ≤ 8) :
    ((bytes.zipIdx k).foldl
      (fun raw byte => raw ||| (byte.1.toUInt64 <<< ofNat (byte.2 * 8))) acc).toNat =
      acc.toNat + 256 ^ k * ofLeBytes bytes := by
  induction bytes generalizing k acc with
  | nil => rfl
  | cons b bytes ih =>
    rw [length_cons] at hlen
    have hb := b.toNat_lt
    have hpow : 256 ^ k = 2 ^ (k * 8) := by rw [mul_comm, Nat.pow_mul]
    have hnext : 256 ^ (k + 1) ≤ 2 ^ 64 :=
      Nat.pow_le_pow_right (show 0 < 256 by decide) (show k + 1 ≤ 8 by omega)
    -- the byte stands above the bytes collected so far
    have hshift : (b.toUInt64 <<< ofNat (k * 8)).toNat = b.toNat <<< (k * 8) := by
      have hplace : k * 8 < 64 := by omega
      rw [UInt64.toNat_shiftLeft, toNat_ofNat_of_lt hplace, mod_eq_of_lt hplace]
      apply mod_eq_of_lt
      rw [shiftLeft_eq, ← hpow]
      calc b.toNat * 256 ^ k < 256 * 256 ^ k := mul_lt_mul_of_pos_right hb (by positivity)
        _ = 256 ^ (k + 1) := (pow_succ').symm
        _ ≤ 2 ^ 64 := hnext
    have hor : (acc ||| (b.toUInt64 <<< ofNat (k * 8))).toNat = acc.toNat + 256 ^ k * b.toNat := by
      rw [UInt64.toNat_or, hshift, Nat.or_comm, ← shiftLeft_add_eq_or_of_lt (hpow ▸ hacc),
        shiftLeft_eq, ← hpow, add_comm, mul_comm]
    have hacc' : (acc ||| (b.toUInt64 <<< ofNat (k * 8))).toNat < 256 ^ (k + 1) := by
      rw [hor]
      calc acc.toNat + 256 ^ k * b.toNat < 256 ^ k + 256 ^ k * b.toNat := by omega
        _ = 256 ^ k * (b.toNat + 1) := by ring
        _ ≤ 256 ^ k * 256 := mul_le_mul_left _ hb
    rw [zipIdx_cons, foldl_cons, ih hacc' (by omega), hor, ofLeBytes]
    ring

/-- An integer that fits into a field is read back from it. -/
theorem readLeInt_intBytes {w : ℕ} {signed : Bool} {x : ℤ} (hx : FitsIn signed w x) :
    readLeInt (intBytes w x) signed = ofInt x := by
  rw [readLeInt, length_intBytes]
  -- the loop collects the field, or the first eight bytes of it
  have htake : (intBytes w x).take 8 = intBytes (min w 8) x := by
    by_cases h : w ≤ 8
    · rw [min_eq_left h, take_of_length_le (by rwa [length_intBytes])]
    · rw [min_eq_right (by omega), take_intBytes (by omega)]
  have hloop := toNat_foldl_or (intBytes (min w 8) x) (show (0 : UInt64).toNat < 256 ^ 0 by decide)
    (by rw [length_intBytes]; omega)
  rw [UInt64.toNat_zero, zero_add, pow_zero, Nat.one_mul] at hloop
  have hraw := congrArg (Nat.cast (R := ℤ)) hloop
  rw [ofLeBytes_intBytes] at hraw
  rw [htake]
  by_cases h8 : 8 ≤ w
  · -- a word is taken as it is
    rw [min_eq_right h8] at hraw ⊢
    rw [eq_ofInt_iff]
    exact hraw
  · rw [min_eq_left (by omega)] at hraw ⊢
    by_cases h0 : w = 0
    · -- the empty field is zero
      subst h0
      obtain rfl : x = 0 := by
        rw [FitsIn] at hx
        split_ifs at hx <;> omega
      rfl
    · refine signExtend_eq (by omega) (by omega) ?_ hx
      rw [hraw, Int.emod_emod_of_dvd _ (dvd_refl _)]

def writeElements (values : List UInt64) (elemSize : ℕ) (bigEndian : Bool) : Bytes :=
  values.flatMap fun v => orderBytes (le64 v) elemSize bigEndian

/-! ### Codes -/

def scaleoffsetError (message : String) : Halt FormatError :=
  .error (.chunkedReadError ("scale-offset: " ++ message))

/-- `nelmts` codes of `minbits` bits, from bit `bitpos` on. -/
def unpackCodes (packed : Bytes) (minbits : ℕ) : (nelmts bitpos : ℕ) → Run (List UInt64)
  | 0, _ => .ok []
  | nelmts + 1, bitpos => do
    let (code, bitpos) ← readBits .panic packed minbits bitpos 0
    let codes ← unpackCodes packed minbits nelmts bitpos
    .ok (code :: codes)

def readCodes (data : Bytes) (minvalEnd nelmts minbits : ℕ) : Run (List UInt64) :=
  if minbits = 0 then .ok (replicate nelmts 0)
  else do
    reject (data.length < minvalEnd + 8) (scaleoffsetError "truncated packed data")
    let packed := data.drop (minvalEnd + 8)
    reject (2 ^ 64 ≤ nelmts * minbits) (scaleoffsetError "size overflow")
    reject (packed.length * 8 < nelmts * minbits) (scaleoffsetError "packed data too short")
    unpackCodes packed minbits nelmts 0

/-- Codes are read from where their bits stand. -/
theorem unpackCodes_of_standsAt {packed : Bytes} {minbits pos : ℕ} (hminbits : minbits ≤ 64)
    {codes : List ℕ} (hcodes : ∀ code ∈ codes, code < 2 ^ minbits)
    (h : StandsAt (bitsOf packed) pos (codes.flatMap (msbBits minbits))) :
    unpackCodes packed minbits codes.length pos = .ok (codes.map ofNat) := by
  induction codes generalizing pos with
  | nil => rfl
  | cons code codes ih =>
    obtain ⟨hcode, hcodes⟩ := forall_mem_cons.mp hcodes
    rw [flatMap_cons, standsAt_append, length_msbBits] at h
    rw [length_cons, unpackCodes, readBits_of_standsAt hminbits hcode h.1, ok_bind]
    dsimp only
    rw [ih hcodes h.2, ok_bind, map_cons]

theorem readCodes_eq {data header packed : Bytes} {minvalEnd minbits : ℕ} {codes : List ℕ}
    (hdata : data = header ++ packed) (hheader : header.length = minvalEnd + 8)
    (hminbits : minbits ≤ 64) (hlen : codes.length < 2 ^ 32)
    (hcodes : ∀ code ∈ codes, code < 2 ^ minbits)
    (hpacked : codes.flatMap (msbBits minbits) <+: bitsOf packed) :
    readCodes data minvalEnd codes.length minbits = .ok (codes.map ofNat) := by
  rw [readCodes]
  by_cases hzero : minbits = 0
  · -- without bits, every code is zero
    subst hzero
    have hall : codes = replicate codes.length 0 :=
      eq_replicate_iff.mpr ⟨rfl, fun code hcode => by simpa using hcodes code hcode⟩
    rw [hall, map_replicate, length_replicate]
    rfl
  · have hbits : (codes.flatMap (msbBits minbits)).length = codes.length * minbits :=
      Overwrite.length_slots (fun _ => length_msbBits minbits _) codes
    have hle := hpacked.length_le
    rw [length_bitsOf] at hle
    have hmul : codes.length * minbits ≤ 2 ^ 32 * 64 := Nat.mul_le_mul hlen.le hminbits
    have hstands : StandsAt (bitsOf packed) 0 (codes.flatMap (msbBits minbits)) := by
      obtain ⟨after, hafter⟩ := hpacked
      exact ⟨[], after, hafter.symm, rfl⟩
    rw [if_neg hzero, reject_bind (by rw [hdata, length_append]; omega)]
    rw [hdata, ← hheader, drop_left, reject_bind (by omega),
      reject_bind (by omega), unpackCodes_of_standsAt hminbits hcodes hstands]

/-- The code with all bits set. -/
def fillCode (minbits : ℕ) : UInt64 :=
  if minbits = 0 then 0
  else if 64 ≤ minbits then MachineInt.maxU64
  else (1 <<< UInt64.ofNat minbits) - 1

theorem fillCode_eq {minbits : ℕ} (h : minbits < 64) :
    fillCode minbits = ofNat (2 ^ minbits - 1) := by
  apply UInt64.toNat_inj.mp
  have hlt : 2 ^ minbits - 1 < 2 ^ 64 :=
    lt_of_le_of_lt (sub_le _ _) (Nat.pow_lt_pow_right (by decide) h)
  rw [toNat_ofNat_of_lt' hlt, fillCode]
  by_cases hzero : minbits = 0
  · rw [hzero]
    rfl
  · rw [if_neg hzero, if_neg (by omega)]
    exact toNat_mask h

/-! ### The decoder -/

def soFloatDscale : ℕ := 0
def soFloatEscale : ℕ := 1
def soInt : ℕ := 2

/-- A word of client data as a signed number. -/
def asI32 (word : ℕ) : ℤ := if word < 2 ^ 31 then word else word - 2 ^ 32

/-- The bits of the fill value in the client data. -/
def fillBits (cd : List ℕ) : UInt64 :=
  UInt64.ofNat (cd[8]?.getD 0) ||| (UInt64.ofNat (cd[9]?.getD 0) <<< 32)

theorem toNat_fillBits {cd : List ℕ} (h : ∀ word ∈ cd, word < 2 ^ 32) :
    (fillBits cd).toNat = cd[8]?.getD 0 + 2 ^ 32 * cd[9]?.getD 0 := by
  have hword (i : ℕ) : cd[i]?.getD 0 < 2 ^ 32 := by
    cases hi : cd[i]? with
    | none => decide
    | some word => exact h word (mem_of_getElem? hi)
  have hlow := hword 8
  have hhigh := hword 9
  rw [fillBits]
  generalize cd[9]?.getD 0 = high at hhigh
  have hshift : (ofNat high <<< 32).toNat = high <<< 32 := by
    rw [UInt64.toNat_shiftLeft, toNat_ofNat_of_lt' (hhigh.trans (by decide))]
    apply mod_eq_of_lt
    rw [shiftLeft_eq]
    exact mul_lt_mul_of_pos_right hhigh (by decide)
  rw [UInt64.toNat_or, hshift, toNat_ofNat_of_lt' (hlow.trans (by decide)),
    Nat.or_comm, ← shiftLeft_add_eq_or_of_lt hlow, shiftLeft_eq, add_comm, mul_comm]

def floatOfCode (ops : FloatOps) (scaleType : ℕ) (scaleFactor : ℤ) (minval : ops.F64)
    (code : UInt64) : ops.F64 :=
  if scaleType = soFloatEscale then
    ops.add minval (ops.mul (ops.ofWord code) (ops.powi 2 scaleFactor))
  else ops.add minval (ops.div (ops.ofWord code) (ops.powi 10 scaleFactor))

/-- Decode a chunk. The client data are the filter's parameters, `expectedBytes` the size of the
decoded chunk, or zero if it is not known. -/
def scaleoffsetDecompress (ops : FloatOps) (data : Bytes) (cd : List ℕ) (expectedBytes : ℕ) :
    Run Bytes := do
  reject (cd.length < 8) (scaleoffsetError "missing filter client data")
  let scaleType ← index cd 0
  let isFloat : Bool := scaleType = soFloatDscale ∨ scaleType = soFloatEscale
  reject (scaleType ≠ soInt ∧ ¬isFloat) (.error (.unsupportedFilter filterScaleoffset))
  let nelmts ← index cd 2
  let elemSize ← index cd 4
  reject (elemSize = 0 ∨ 8 < elemSize ∨ (isFloat ∧ elemSize ≠ 4 ∧ elemSize ≠ 8))
    (scaleoffsetError "unsupported element size")
  let outBytes := nelmts * elemSize
  reject (2 ^ 64 ≤ outBytes) (scaleoffsetError "size overflow")
  reject (expectedBytes ≠ 0 ∧ expectedBytes < outBytes)
    (scaleoffsetError "element count exceeds chunk size")
  let signed := (← index cd 5) == 1
  let bigEndian := (← index cd 6) == 1
  let fillDefined := (← index cd 7) == 1
  reject (data.length < 5) (scaleoffsetError "truncated header")
  let minbits ← leAt data 0 4
  let minvalWidth ← byteAt data 4
  let minvalEnd := 5 + minvalWidth
  reject (data.length < minvalEnd) (scaleoffsetError "truncated minval")
  let minvalBytes ← slice data 5 minvalEnd
  reject (64 < minbits) (scaleoffsetError "implausible minbits")
  let codes ← readCodes data minvalEnd nelmts minbits
  let hasFillCode : Bool := fillDefined ∧ 0 < minbits ∧ minbits < 64
  if isFloat then
    let scaleFactor := asI32 (← index cd 1)
    let minval := readLeFloat ops minvalBytes elemSize
    let fillValue := if fillDefined then bitsToFloat ops (fillBits cd) elemSize else ops.ofBits64 0
    let values := codes.map fun code =>
      if hasFillCode && code == fillCode minbits then fillValue
      else floatOfCode ops scaleType scaleFactor minval code
    .ok (writeFloats ops values elemSize bigEndian)
  else
    let minval := readLeInt minvalBytes signed
    let fillValue := if fillDefined then signExtend (fillBits cd) elemSize signed else 0
    let values := codes.map fun code =>
      if hasFillCode && code == fillCode minbits then fillValue else minval + code
    .ok (writeElements values elemSize bigEndian)

/-! ### Encoded integers -/

/-- A type of integers: its size in bytes, whether it has a sign, and its byte order. -/
structure IntType where
  size : ℕ
  signed : Bool
  bigEndian : Bool
  size_pos : 0 < size
  size_le : size ≤ 8

def IntType.bytes (t : IntType) (x : ℤ) : Bytes :=
  if t.bigEndian then (intBytes t.size x).reverse else intBytes t.size x

/-- Integers of one type with their minimum, a fill value if one is defined, and a number of bits
that the distances from the minimum have. -/
structure IntBlock where
  type : IntType
  values : List ℤ
  fill : Option ℤ
  minval : ℤ
  minbits : ℕ
  value_fits : ∀ x ∈ values, FitsIn type.signed type.size x
  fill_fits : ∀ x ∈ fill, FitsIn type.signed type.size x
  minval_le : ∀ x ∈ values, minval ≤ x
  minval_mem : values ≠ [] → minval ∈ values
  code_lt : ∀ x ∈ values, fill ≠ some x → x - minval < 2 ^ minbits
  code_ne : ∀ x ∈ values, fill ≠ none → fill ≠ some x → x - minval ≠ 2 ^ minbits - 1

namespace IntBlock

/-- The code of an integer: its distance from the minimum, and all ones for the fill value. -/
def code (b : IntBlock) (x : ℤ) : ℕ :=
  if b.fill = some x then 2 ^ b.minbits - 1 else (x - b.minval).toNat

def codeBits (b : IntBlock) : List Bool := (b.values.map b.code).flatMap (msbBits b.minbits)

/-- The header of a block: the number of bits and the minimum, in a field of `width` bytes, and
eight bytes that are not used. -/
def header (b : IntBlock) (width : ℕ) (reserved : Fixed 8) : Bytes :=
  leBytes 4 b.minbits ++ leBytes 1 width ++ intBytes width b.minval ++ reserved.1

/-- Client data and a chunk that store a block. Any bits may stand behind the last code. -/
structure Stored (b : IntBlock) (cd : List ℕ) (data : Bytes) : Prop where
  word_lt : ∀ word ∈ cd, word < 2 ^ 32
  scaleType : cd[0]? = some soInt
  nelmts : cd[2]? = some b.values.length
  elemSize : cd[4]? = some b.type.size
  signed : ∃ flag, cd[5]? = some flag ∧ (flag == 1) = b.type.signed
  bigEndian : ∃ flag, cd[6]? = some flag ∧ (flag == 1) = b.type.bigEndian
  fillDefined : ∃ flag, cd[7]? = some flag ∧ (flag == 1) = b.fill.isSome
  fillValue : ∀ x ∈ b.fill,
    ((cd[8]?.getD 0 + 2 ^ 32 * cd[9]?.getD 0 : ℕ) : ℤ) % 256 ^ b.type.size = x % 256 ^ b.type.size
  minbits_lt : b.minbits < 2 ^ 32
  chunk : ∃ width reserved packed, width < 256 ∧ FitsIn b.type.signed width b.minval ∧
    b.codeBits <+: bitsOf packed ∧ data = b.header width reserved ++ packed

variable {b : IntBlock} {cd : List ℕ} {data : Bytes}

section

variable {x : ℤ} (hx : x ∈ b.values)
include hx

theorem code_lt_two_pow : b.code x < 2 ^ b.minbits := by
  rw [code]
  split_ifs with hfill
  · exact sub_lt (by positivity) one_pos
  · have hlt := b.code_lt x hx hfill
    have hle := b.minval_le x hx
    zify
    rwa [Int.toNat_of_nonneg (by omega)]

/-- The distance of an ordinary integer from the minimum leads back to it. -/
theorem minval_add_code (hfill : b.fill ≠ some x) :
    ofInt b.minval + ofNat (b.code x) = ofInt x := by
  have hle := b.minval_le x hx
  have hcode : (b.code x : ℤ) = x - b.minval := by
    rw [code, if_neg hfill, Int.toNat_of_nonneg (by omega)]
  have hword : ofNat (b.code x) = ofInt (b.code x) := by
    rw [eq_ofInt_iff]
    rfl
  rw [hword, ← ofInt_add, hcode, add_sub_cancel]

/-- An integer that is neither the fill value nor encoded like it. -/
theorem ofNat_code_ne (hsome : b.fill ≠ none) (hfill : b.fill ≠ some x) (hbits : b.minbits < 64) :
    ofNat (b.code x) ≠ fillCode b.minbits := by
  intro heq
  have hpow : 2 ^ b.minbits < 2 ^ 64 := Nat.pow_lt_pow_right (by decide) hbits
  have hcode := code_lt_two_pow hx
  rw [fillCode_eq hbits, ← UInt64.toNat_inj, toNat_ofNat_of_lt' (hcode.trans hpow),
    toNat_ofNat_of_lt' (lt_of_le_of_lt (sub_le _ _) hpow), code, if_neg hfill] at heq
  apply b.code_ne x hx hsome hfill
  have hle := b.minval_le x hx
  rw [← Int.toNat_of_nonneg (show 0 ≤ x - b.minval by omega), heq, cast_sub Nat.one_le_two_pow]
  rfl

theorem minval_eq_of_fill (hfill : b.fill = some x) (hbits : b.minbits = 0) : b.minval = x := by
  by_contra hne
  have hmem := b.minval_mem (ne_nil_of_mem hx)
  refine b.code_ne b.minval hmem (by rw [hfill]; nofun) ?_ ?_
  · rw [hfill]
    exact fun h => hne (Option.some.inj h).symm
  · rw [hbits, sub_self]
    rfl

end

/-- What the decoder makes of the code of an integer. -/
theorem decode_code {fillValue : UInt64} (hvalue : ∀ f ∈ b.fill, fillValue = ofInt f)
    (hbits : b.minbits < 64 ∨ b.minbits = 64 ∧ ∀ f ∈ b.fill, f ∉ b.values) {x : ℤ}
    (hx : x ∈ b.values) :
    (if decide (b.fill.isSome = true ∧ 0 < b.minbits ∧ b.minbits < 64) &&
        ofNat (b.code x) == fillCode b.minbits then fillValue
      else ofInt b.minval + ofNat (b.code x)) = ofInt x := by
  by_cases hfill : b.fill = some x
  · have hlt : b.minbits < 64 := by
      rcases hbits with hlt | ⟨-, hnone⟩
      · exact hlt
      · exact absurd hx (hnone x hfill)
    have hcode : b.code x = 2 ^ b.minbits - 1 := by rw [code, if_pos hfill]
    rw [hcode, ← fillCode_eq hlt]
    by_cases hpos : 0 < b.minbits
    · have hsome : b.fill.isSome = true := by rw [hfill]; rfl
      simp [hsome, hpos, hlt, hvalue x hfill]
    · have hzero : b.minbits = 0 := by omega
      simp [hzero, fillCode, minval_eq_of_fill hx hfill hzero]
  · rw [if_neg, minval_add_code hx hfill]
    intro h
    rw [Bool.and_eq_true, decide_eq_true_iff, beq_iff_eq] at h
    obtain ⟨⟨hsome, -, hlt⟩, hcode⟩ := h
    have hne : b.fill ≠ none := by
      intro hnone
      rw [hnone] at hsome
      cases hsome
    exact ofNat_code_ne hx hne hfill hlt hcode

theorem writeElements_eq (hexact : b.type.size ≤ 8) (xs : List ℤ) :
    writeElements (xs.map ofInt) b.type.size b.type.bigEndian = xs.flatMap b.type.bytes := by
  rw [writeElements, flatMap_map]
  refine flatMap_congr fun x _ => ?_
  rw [orderBytes, IntType.bytes, take_le64_ofInt hexact]

/-- Stored integers are decoded, from at most 64 bits each; codes of 64 bits leave no code for the
fill value. -/
theorem scaleoffsetDecompress_stored (ops : FloatOps) {expectedBytes : ℕ} (h : b.Stored cd data)
    (hexpected : expectedBytes = 0 ∨ b.values.length * b.type.size ≤ expectedBytes)
    (hbits : b.minbits < 64 ∨ b.minbits = 64 ∧ ∀ f ∈ b.fill, f ∉ b.values) :
    scaleoffsetDecompress ops data cd expectedBytes = .ok (b.values.flatMap b.type.bytes) := by
  obtain ⟨hword, htype, hnelmts, hsize, ⟨signed, hsigned, hsignedEq⟩, ⟨big, hbig, hbigEq⟩,
    ⟨defined, hdefined, hdefinedEq⟩, hfill, hminbits, width, reserved, packed, hwidth, hfits,
    hcodes, hdata⟩ := h
  have hle : b.minbits ≤ 64 := by omega
  have hsizePos := b.type.size_pos
  have hsizeLe := b.type.size_le
  have hcd : 8 ≤ cd.length := (List.getElem?_eq_some_iff.mp hdefined).1
  have hcount : b.values.length < 2 ^ 32 := hword _ (mem_of_getElem? hnelmts)
  have hout : b.values.length * b.type.size ≤ 2 ^ 32 * 8 := Nat.mul_le_mul hcount.le hsizeLe
  -- the fields of the header
  have hheader : (b.header width reserved).length = 5 + width + 8 := by
    simp only [header, length_append, length_leBytes, length_intBytes, reserved.2]
  have hlen : data.length = 5 + width + 8 + packed.length := by
    rw [hdata, length_append, hheader]
  have hstands := standsAt_self data
  nth_rewrite 2 [hdata] at hstands
  simp only [header, standsAt_append, length_append, length_leBytes] at hstands
  obtain ⟨⟨⟨⟨hbitsField, hwidthField⟩, hminvalField⟩, -⟩, -⟩ := hstands
  have hslice := slice_of_standsAt hminvalField
  rw [length_intBytes] at hslice
  have hread : readCodes data (5 + width) b.values.length b.minbits =
      .ok ((b.values.map b.code).map ofNat) := by
    rw [← length_map b.code]
    refine readCodes_eq hdata hheader hle (by rwa [length_map]) ?_ hcodes
    exact forall_mem_map.mpr fun x hx => code_lt_two_pow hx
  have hfillValue : ∀ f ∈ b.fill, (if (defined == 1) = true then
      signExtend (fillBits cd) b.type.size b.type.signed else 0) = ofInt f := by
    intro f hf
    rw [hdefinedEq, hf]
    refine signExtend_eq hsizePos hsizeLe ?_ (b.fill_fits f hf)
    rw [toNat_fillBits hword]
    exact hfill f hf
  have hfloat : decide (soInt = soFloatDscale ∨ soInt = soFloatEscale) = false := by decide
  rw [scaleoffsetDecompress, reject_bind (by omega), index_eq_ok.mpr htype, ok_bind]
  dsimp only
  rw [hfloat, reject_bind (by simp), index_eq_ok.mpr hnelmts, ok_bind,
    index_eq_ok.mpr hsize, ok_bind, reject_bind (by simp; omega),
    reject_bind (by omega), reject_bind (by omega),
    index_eq_ok.mpr hsigned, ok_bind, index_eq_ok.mpr hbig, ok_bind, index_eq_ok.mpr hdefined,
    ok_bind, reject_bind (by omega), leAt_of_standsAt hbitsField hminbits, ok_bind,
    byteAt_bind hwidthField hwidth, reject_bind (by omega),
    hslice, ok_bind, reject_bind (by omega), hread, ok_bind,
    readLeInt_intBytes (hsignedEq ▸ hfits), hsignedEq, hbigEq, map_map, map_map,
    ← writeElements_eq hsizeLe]
  rw [hdefinedEq] at hfillValue ⊢
  -- each code is decoded to the integer it stands for
  have hdecode := map_congr_left fun x (hx : x ∈ b.values) => decode_code hfillValue hbits hx
  exact congrArg (fun words => Except.ok (writeElements words b.type.size b.type.bigEndian)) hdecode

/-- Signed big-endian integers of two bytes, the third of which is the fill value. -/
def sample : IntBlock where
  type := ⟨2, true, true, by decide, by decide⟩
  values := [-3, 0, 7, 1]
  fill := some 7
  minval := -3
  minbits := 3
  value_fits := by decide
  fill_fits := by decide
  minval_le := by decide
  minval_mem := by decide
  code_lt := by decide
  code_ne := by decide

theorem scaleoffsetDecompress_stored_sample :
    scaleoffsetDecompress FloatOps.machine
      ([3, 0, 0, 0, 8] ++ [0xfd, 0xff, 0xff, 0xff, 0xff, 0xff, 0xff, 0xff] ++
        [0, 0, 0, 0, 0, 0, 0, 0] ++ [0x0f, 0xc0]) [2, 0, 4, 0, 2, 1, 1, 1, 7, 0] 8 =
      .ok [0xff, 0xfd, 0, 0, 0, 7, 0, 1] :=
  scaleoffsetDecompress_stored (b := sample) FloatOps.machine
    { word_lt := by decide
      scaleType := rfl
      nelmts := rfl
      elemSize := rfl
      signed := ⟨1, rfl, rfl⟩
      bigEndian := ⟨1, rfl, rfl⟩
      fillDefined := ⟨1, rfl, rfl⟩
      fillValue := by decide
      minbits_lt := by decide
      chunk := ⟨8, ⟨[0, 0, 0, 0, 0, 0, 0, 0], rfl⟩, [0x0f, 0xc0], by decide, by decide, by decide,
        by decide⟩ }
    (.inr (by decide)) (.inl (by decide))

/-- Integers of one byte, the second of which is the fill value, with codes of 64 bits. -/
def sampleFull : IntBlock where
  type := ⟨1, false, false, by decide, by decide⟩
  values := [1, 2]
  fill := some 2
  minval := 1
  minbits := 64
  value_fits := by decide
  fill_fits := by decide
  minval_le := by decide
  minval_mem := by decide
  code_lt := by decide
  code_ne := by decide

/-- One integer with a code of 65 bits. -/
def sampleWide : IntBlock where
  type := ⟨1, false, false, by decide, by decide⟩
  values := [1]
  fill := none
  minval := 1
  minbits := 65
  value_fits := by decide
  fill_fits := by decide
  minval_le := by decide
  minval_mem := by decide
  code_lt := by decide
  code_ne := by decide

/-- Codes of more than 64 bits are refused, and with codes of 64 bits a fill element is decoded as
an ordinary one. -/
theorem scaleoffsetDecompress_wide_codes :
    (sampleWide.Stored [2, 0, 1, 0, 1, 0, 0, 0] (([65, 0, 0, 0, 1] ++ [1] ++
        replicate 8 0) ++ replicate 9 0) ∧
      scaleoffsetDecompress FloatOps.machine (([65, 0, 0, 0, 1] ++ [1] ++ replicate 8 0) ++
        replicate 9 0) [2, 0, 1, 0, 1, 0, 0, 0] 1 =
          .error (scaleoffsetError "implausible minbits")) ∧
    sampleFull.Stored [2, 0, 2, 0, 1, 0, 0, 1, 2, 0] (([64, 0, 0, 0, 1] ++ [1] ++
        replicate 8 0) ++ (replicate 8 0 ++ replicate 8 0xff)) ∧
      scaleoffsetDecompress FloatOps.machine (([64, 0, 0, 0, 1] ++ [1] ++ replicate 8 0) ++
        (replicate 8 0 ++ replicate 8 0xff)) [2, 0, 2, 0, 1, 0, 0, 1, 2, 0] 2 =
          .ok [1, 0] ∧ sampleFull.values.flatMap sampleFull.type.bytes = [1, 2] := by
  refine ⟨⟨?_, by rfl⟩, ?_, ?_, by decide⟩
  · exact
      { word_lt := by decide
        scaleType := rfl
        nelmts := rfl
        elemSize := rfl
        signed := ⟨0, rfl, rfl⟩
        bigEndian := ⟨0, rfl, rfl⟩
        fillDefined := ⟨0, rfl, rfl⟩
        fillValue := nofun
        minbits_lt := by decide
        chunk := ⟨1, ⟨replicate 8 0, rfl⟩, replicate 9 0, by decide, by decide,
          by decide, by decide⟩ }
  · exact
      { word_lt := by decide
        scaleType := rfl
        nelmts := rfl
        elemSize := rfl
        signed := ⟨0, rfl, rfl⟩
        bigEndian := ⟨0, rfl, rfl⟩
        fillDefined := ⟨1, rfl, rfl⟩
        fillValue := by decide
        minbits_lt := by decide
        chunk := ⟨1, ⟨replicate 8 0, rfl⟩, replicate 8 0 ++ replicate 8 0xff,
          by decide, by decide, by decide, by decide⟩ }
  · decide +kernel

end IntBlock

end ClawHdf5.Format
