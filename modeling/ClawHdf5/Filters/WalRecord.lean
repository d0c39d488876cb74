import ClawHdf5.Math.Storage

/-!
# Records of the version log

One record of the write-ahead log of version counters: a status, a chunk index, the version
reserved for the chunk and a hash of the plaintext, followed by a CRC32 of these 49 bytes.
-/

namespace ClawHdf5.Filters

open Bytes List

def walRecordSize : ℕ := 53

/-- The size of the part of a record that its checksum covers. -/
def walRecordChecksumPrefix : ℕ := 49

def walMagic : Bytes := [0x43, 0x57, 0x41, 0x4C]

def walVersion : UInt8 := 1

/-- The size of the log's header: magic, version and three reserved bytes. -/
def walHeaderSize : ℕ := 8

inductive WalRecordStatus
  | empty
  | pending
  | committed
  deriving DecidableEq

inductive WalError
  | io (source : IoError)
  | invalidMagic (magic : Bytes)
  | unsupportedVersion (version : UInt8)
  | invalidRecordStatus (status : UInt8)
  | checksumMismatch (expected actual : UInt32)
  | walFull
  | recordNotFound (chunkIdx : UInt64)
  | bufferTooShort (expected actual : ℕ)
  | corruptRecord (index : ℕ)
  deriving DecidableEq

namespace WalRecordStatus

def toByte : WalRecordStatus → UInt8
  | empty => 0x00
  | pending => 0x01
  | committed => 0x02

def tryFrom (value : UInt8) : Except WalError WalRecordStatus :=
  if value = 0x00 then .ok empty
  else if value = 0x01 then .ok pending
  else if value = 0x02 then .ok committed
  else .error (.invalidRecordStatus value)

@[simp] theorem tryFrom_toByte (status : WalRecordStatus) :
    tryFrom status.toByte = .ok status := by
  cases status <;> rfl

theorem toByte_of_tryFrom {value : UInt8} {status : WalRecordStatus}
    (h : tryFrom value = .ok status) : status.toByte = value := by
  unfold tryFrom at h
  split_ifs at h with h0 h1 h2 <;> cases h
  · exact h0.symm
  · exact h1.symm
  · exact h2.symm

end WalRecordStatus

/-! ### Checksum -/

/-- One bit of the checksum's division. -/
def crc32Bit (crc : UInt32) : UInt32 :=
  if crc &&& 1 ≠ 0 then (crc >>> 1) ^^^ 0xEDB88320 else crc >>> 1

/-- CRC32 with the reflected IEEE polynomial. -/
def crc32Checksum (data : Bytes) : UInt32 :=
  ~~~(data.foldl (fun crc byte => crc32Bit^[8] (crc ^^^ byte.toUInt32)) 0xFFFFFFFF)

/-- The check value of this CRC: the checksum of the digits `123456789`. -/
example : crc32Checksum [49, 50, 51, 52, 53, 54, 55, 56, 57] = 0xCBF43926 := by decide +kernel

/-! ### Encoding -/

structure WalRecord where
  status : WalRecordStatus
  chunkIdx : UInt64
  version : UInt64
  /-- The hash of the plaintext encrypted under the chunk and the version. -/
  plaintextHash : Fixed 32
  deriving DecidableEq

namespace WalRecord

/-- A record of a write in progress. -/
def newPending (chunkIdx version : UInt64) (plaintextHash : Fixed 32) : WalRecord :=
  ⟨.pending, chunkIdx, version, plaintextHash⟩

def checkedBytes (r : WalRecord) : Bytes :=
  [r.status.toByte] ++ (le64 r.chunkIdx ++ (le64 r.version ++ r.plaintextHash.1))

@[simp] theorem length_checkedBytes (r : WalRecord) :
    r.checkedBytes.length = walRecordChecksumPrefix := by
  simp [checkedBytes, r.plaintextHash.2, walRecordChecksumPrefix]

def toBytes (r : WalRecord) : Fixed walRecordSize :=
  ⟨r.checkedBytes ++ le32 (crc32Checksum r.checkedBytes), by
    simp only [List.length_append, length_checkedBytes, length_le32, walRecordChecksumPrefix,
      walRecordSize]⟩

/-- The record of 53 bytes, when their checksum and their status are valid. -/
def fromBytes (buf : Fixed walRecordSize) : Except WalError WalRecord := do
  let storedChecksum := ofLe32 (buf.slice 49 4 (by decide)).1
  let computedChecksum := crc32Checksum (buf.slice 0 walRecordChecksumPrefix (by decide)).1
  if storedChecksum ≠ computedChecksum then
    throw (.checksumMismatch computedChecksum storedChecksum)
  let status ← WalRecordStatus.tryFrom ((buf.slice 0 1 (by decide)).1.headD 0)
  return {
    status := status
    chunkIdx := ofLe64 (buf.slice 1 8 (by decide)).1
    version := ofLe64 (buf.slice 9 8 (by decide)).1
    plaintextHash := buf.slice 17 32 (by decide) }

/-- A record is read back as it was written. -/
@[simp] theorem fromBytes_toBytes (r : WalRecord) : fromBytes r.toBytes = .ok r := by
  have hbytes : r.toBytes.1 = [r.status.toByte] ++ (le64 r.chunkIdx ++ (le64 r.version ++
      (r.plaintextHash.1 ++ le32 (crc32Checksum r.checkedBytes)))) := by
    simp [toBytes, checkedBytes]
  have hcrc : (r.toBytes.slice 49 4 (by decide)).1 = le32 (crc32Checksum r.checkedBytes) :=
    Fixed.slice_eq r.checkedBytes [] (by rw [append_nil]; rfl) r.length_checkedBytes (length_le32 _)
  have hchecked : (r.toBytes.slice 0 walRecordChecksumPrefix (by decide)).1 = r.checkedBytes :=
    Fixed.slice_eq [] _ rfl rfl r.length_checkedBytes
  have hstatus : (r.toBytes.slice 0 1 (by decide)).1 = [r.status.toByte] :=
    Fixed.slice_eq [] _ hbytes rfl rfl
  have hchunk : (r.toBytes.slice 1 8 (by decide)).1 = le64 r.chunkIdx :=
    Fixed.slice_eq [r.status.toByte] _ hbytes rfl (length_le64 _)
  have hversion : (r.toBytes.slice 9 8 (by decide)).1 = le64 r.version := by
    refine Fixed.slice_eq ([r.status.toByte] ++ le64 r.chunkIdx)
      (r.plaintextHash.1 ++ le32 (crc32Checksum r.checkedBytes)) ?_ ?_ (length_le64 _)
    · rw [append_assoc, hbytes]
    · simp
  have hhash : r.toBytes.slice 17 32 (by decide) = r.plaintextHash := by
    refine Subtype.ext (Fixed.slice_eq ([r.status.toByte] ++ (le64 r.chunkIdx ++ le64 r.version))
      (le32 (crc32Checksum r.checkedBytes)) ?_ ?_ r.plaintextHash.2)
    · simp only [append_assoc]
      exact hbytes
    · simp
  simp only [fromBytes, hcrc, hchecked, hstatus, hchunk, hversion, hhash, ofLe32_le32, ofLe64_le64,
    ne_eq, headD_cons, WalRecordStatus.tryFrom_toByte]
  rfl

/-- The bytes of a record are determined by what is read from them. -/
theorem toBytes_of_fromBytes {buf : Fixed walRecordSize} {r : WalRecord}
    (h : fromBytes buf = .ok r) : r.toBytes = buf := by
  have hstatusByte : [(buf.slice 0 1 (by decide)).1.headD 0] = (buf.slice 0 1 (by decide)).1 := by
    obtain ⟨b, hb⟩ := length_eq_one_iff.mp (buf.slice 0 1 (by decide)).2
    rw [hb, headD_cons]
  simp only [fromBytes] at h
  split_ifs at h with hsum
  · cases h
  rw [not_not] at hsum
  cases hstatus : WalRecordStatus.tryFrom ((buf.slice 0 1 (by decide)).1.headD 0) with
  | error e =>
    rw [hstatus] at h
    cases h
  | ok status =>
    rw [hstatus] at h
    cases h
    -- The five fields are neighbours, and each is written as it was read.
    have hchecked : checkedBytes ⟨status, ofLe64 (buf.slice 1 8 (by decide)).1,
        ofLe64 (buf.slice 9 8 (by decide)).1, buf.slice 17 32 (by decide)⟩ =
        (buf.slice 0 walRecordChecksumPrefix (by decide)).1 := by
      rw [checkedBytes, WalRecordStatus.toByte_of_tryFrom hstatus, hstatusByte,
        le64_ofLe64 (buf.slice 1 8 (by decide)).2, le64_ofLe64 (buf.slice 9 8 (by decide)).2]
      rw [buf.slice_append 9 8 32 (by decide), buf.slice_append 1 8 40 (by decide),
        buf.slice_append 0 1 48 (by decide)]
      rfl
    apply Subtype.ext
    rw [toBytes]
    dsimp only
    rw [hchecked, ← hsum, le32_ofLe32 (buf.slice 49 4 (by decide)).2]
    exact (buf.slice_append 0 49 4 (by decide)).trans (congrArg Subtype.val buf.slice_all)

end WalRecord

/-! ### Slots -/

/-- The bytes of a freed slot. -/
def emptyRecord : Bytes := replicate walRecordSize 0

/-- What a slot holds: nothing when it was freed, else a record. A slot that is neither makes
the whole log unreadable. -/
def parseSlot (index : ℕ) (buf : Fixed walRecordSize) : Except WalError (Option WalRecord) :=
  if buf.1 = emptyRecord then .ok none
  else match WalRecord.fromBytes buf with
    | .ok record => .ok (some record)
    | .error _ => .error (.corruptRecord index)

def encodeSlot : Option WalRecord → Bytes
  | none => emptyRecord
  | some record => record.toBytes.1

@[simp] theorem length_encodeSlot (slot : Option WalRecord) :
    (encodeSlot slot).length = walRecordSize := by
  cases slot with
  | none => exact length_replicate
  | some record => exact record.toBytes.2

theorem WalRecord.toBytes_ne_emptyRecord (r : WalRecord) : r.toBytes.1 ≠ emptyRecord := by
  intro h
  have hsplit : emptyRecord = replicate 49 0 ++ replicate 4 0 := by decide
  obtain ⟨hchecked, hcrc⟩ := append_inj (h.trans hsplit) r.length_checkedBytes
  rw [hchecked] at hcrc
  exact absurd hcrc (by decide +kernel)

theorem parseSlot_encodeSlot {index : ℕ} {slot : Option WalRecord} {buf : Fixed walRecordSize}
    (h : buf.1 = encodeSlot slot) : parseSlot index buf = .ok slot := by
  cases slot with
  | none => exact if_pos h
  | some record =>
    have hbuf : buf = record.toBytes := Subtype.ext h
    rw [hbuf, parseSlot, if_neg record.toBytes_ne_emptyRecord, WalRecord.fromBytes_toBytes]

/-- What a slot holds, if it can be read at all. -/
def slotContent (buf : Fixed walRecordSize) : Option (Option WalRecord) :=
  if buf.1 = emptyRecord then some none
  else match WalRecord.fromBytes buf with
    | .ok record => some (some record)
    | .error _ => none

theorem parseSlot_eq (index : ℕ) (buf : Fixed walRecordSize) :
    parseSlot index buf = match slotContent buf with
      | some slot => .ok slot
      | none => .error (.corruptRecord index) := by
  unfold parseSlot slotContent
  split_ifs with h
  · rfl
  · cases WalRecord.fromBytes buf <;> rfl

/-- A slot can be read exactly if it was freed or holds the bytes of a record. -/
theorem slotContent_eq_some {buf : Fixed walRecordSize} {slot : Option WalRecord} :
    slotContent buf = some slot ↔ buf.1 = encodeSlot slot := by
  constructor
  · intro h
    unfold slotContent at h
    split_ifs at h with hempty
    · cases h
      exact hempty
    · cases hread : WalRecord.fromBytes buf with
      | error e =>
        rw [hread] at h
        cases h
      | ok record =>
        rw [hread] at h
        cases h
        exact congrArg Subtype.val (WalRecord.toBytes_of_fromBytes hread).symm
  · intro h
    have hparse := @parseSlot_encodeSlot 0 _ _ h
    rw [parseSlot_eq] at hparse
    cases hcontent : slotContent buf with
    | none =>
      rw [hcontent] at hparse
      cases hparse
    | some content =>
      rw [hcontent] at hparse
      cases hparse
      rfl

end ClawHdf5.Filters
