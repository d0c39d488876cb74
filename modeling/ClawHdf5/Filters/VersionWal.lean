import ClawHdf5.Filters.WalRecord

/-!
# The write-ahead log of version counters

The log is a header of eight bytes followed by slots of 53 bytes, over any storage. Records
are journaled behind the last counted slot, swept to committed in place, and compacted to the
front; the slots this frees are zeroed, since the storage cannot be shortened. Opening a log
counts the slots from the length of the file.
-/

namespace ClawHdf5.Filters

open Bytes Stateful

/-- A log of version counters over the storage `W`. -/
structure VersionWal (W : Type) where
  writer : W
  /-- The number of slots that may be counted. -/
  maxRecords : ℕ
  /-- The number of slots counted. -/
  recordCount : ℕ

/-- What a journaled record reserves: a chunk, its version and the hash of its plaintext. -/
abbrev Journaled := UInt64 × UInt64 × Fixed 32

def walHeader : Bytes := walMagic ++ [walVersion, 0, 0, 0]

def slotOffset (i : ℕ) : ℕ := walHeaderSize + i * walRecordSize

namespace VersionWal

variable {W : Type} [Storage W] {α : Type}

/-- An operation of the log's storage. -/
def io (x : EStateM IoError W α) : EStateM WalError (VersionWal W) α :=
  within writer (fun wal w => { wal with writer := w }) .io x

/-- Write the header of an empty storage, or check the header there; the number of slots. -/
def openStorage : EStateM WalError W ℕ := do
  let pos ← lift Storage.seekEnd
  if pos = 0 then
    let _ ← lift (Storage.seekStart 0)
    lift (Storage.writeAll walHeader)
    lift Storage.flush
    return 0
  else
    let _ ← lift (Storage.seekStart 0)
    let header ← lift (Storage.readExact walHeaderSize)
    let magic := (header.slice 0 4 (by decide)).1
    let version := (header.slice 4 1 (by decide)).1.headD 0
    if magic ≠ walMagic then throw (.invalidMagic magic)
    else if version ≠ walVersion then throw (.unsupportedVersion version)
    else return (pos - walHeaderSize) / walRecordSize
where
  /-- An operation of the storage before there is a log. -/
  lift {α : Type} (x : EStateM IoError W α) : EStateM WalError W α :=
    within id (fun _ w => w) .io x

/-- Open the log of a storage. -/
def new (writer : W) (maxRecords : ℕ) : Except WalError (VersionWal W) :=
  match openStorage writer with
  | .ok recordCount writer => .ok ⟨writer, maxRecords, recordCount⟩
  | .error e _ => .error e

def storeSlot (i : ℕ) (record : WalRecord) : EStateM WalError (VersionWal W) Unit := do
  let _ ← io (Storage.seekStart (slotOffset i))
  io (Storage.writeAll record.toBytes.1)

def loadSlot (i : ℕ) : EStateM WalError (VersionWal W) (Option WalRecord) := do
  let _ ← io (Storage.seekStart (slotOffset i))
  let buf ← io (Storage.readExact walRecordSize)
  raise (parseSlot i buf)

/-- Read a slot, where `none` stands for a read that failed. -/
def peekSlot (i : ℕ) : EStateM WalError (VersionWal W) (Option (Option WalRecord)) := do
  let _ ← io (Storage.seekStart (slotOffset i))
  let read ← attempt (io (Storage.readExact walRecordSize))
  match read with
  | .error _ => pure none
  | .ok buf => some <$> raise (parseSlot i buf)

def journalVersion (chunkIdx version : UInt64) (plaintextHash : Fixed 32) :
    EStateM WalError (VersionWal W) Unit := do
  let wal ← get
  if wal.recordCount ≥ wal.maxRecords then throw .walFull
  else
    storeSlot wal.recordCount (WalRecord.newPending chunkIdx version plaintextHash)
    io Storage.flush
    modify fun wal => { wal with recordCount := wal.recordCount + 1 }

/-- Mark the pending records of a chunk in the first `n` slots as committed, from the last
slot down; whether there was one. -/
def sweep (chunkIdx : UInt64) : ℕ → Bool → EStateM WalError (VersionWal W) Bool
  | 0, found => pure found
  | i + 1, found => do
    let slot ← loadSlot i
    match slot with
    | none => sweep chunkIdx i found
    | some record =>
      if record.chunkIdx = chunkIdx ∧ record.status = .pending then
        -- The whole record is rewritten, so that its checksum stays valid.
        storeSlot i { record with status := .committed }
        sweep chunkIdx i true
      else sweep chunkIdx i found

/-- Mark every pending record of a chunk as committed. -/
def commitVersion (chunkIdx : UInt64) : EStateM WalError (VersionWal W) Unit := do
  let wal ← get
  let found ← sweep chunkIdx wal.recordCount false
  if found then io Storage.flush else throw (.recordNotFound chunkIdx)

/-- The pending records of `n` slots from slot `i` on, after those in `acc`. A slot that
cannot be read ends the scan. -/
def collectPending : ℕ → ℕ → List WalRecord → EStateM WalError (VersionWal W) (List WalRecord)
  | 0, _, acc => pure acc
  | n + 1, i, acc => do
    let read ← peekSlot i
    match read with
    | none => pure acc
    | some none => collectPending n (i + 1) acc
    | some (some record) =>
      if record.status = .pending then collectPending n (i + 1) (acc ++ [record])
      else collectPending n (i + 1) acc

/-- What a record reserved. -/
def journaled (record : WalRecord) : Journaled :=
  (record.chunkIdx, record.version, record.plaintextHash)

/-- The versions journaled and not committed. -/
def recover : EStateM WalError (VersionWal W) (List Journaled) := do
  let wal ← get
  let uncommitted ← collectPending wal.recordCount 0 []
  return uncommitted.map journaled

/-- Write one block after the other. -/
def writeEach : List Bytes → EStateM WalError (VersionWal W) Unit
  | [] => pure ()
  | block :: blocks => do
    io (Storage.writeAll block)
    writeEach blocks

theorem writeEach_bind_writeEach {α : Type} (xs ys : List Bytes)
    (f : Unit → EStateM WalError (VersionWal W) α) :
    (writeEach xs >>= fun _ => writeEach ys >>= f) = writeEach (xs ++ ys) >>= f := by
  induction xs with
  | nil => rfl
  | cons x xs ih => rw [List.cons_append, writeEach, writeEach, bind_assoc, bind_assoc, ih]

/-- Move the pending records to the front and zero the slots behind them. -/
def compact : EStateM WalError (VersionWal W) Unit := do
  let wal ← get
  let oldCount := wal.recordCount
  let pendingRecords ← collectPending oldCount 0 []
  let _ ← io (Storage.seekStart walHeaderSize)
  writeEach (pendingRecords.map fun record => record.toBytes.1)
  writeEach (List.replicate (oldCount - pendingRecords.length) emptyRecord)
  modify fun wal => { wal with recordCount := pendingRecords.length }
  io Storage.flush
  let _ ← io (Storage.seekStart (slotOffset pendingRecords.length))

end VersionWal

end ClawHdf5.Filters
