import ClawHdf5.Filters.VersionWal

/-!
# Encrypted chunk writes

A chunk is encrypted under a nonce derived from the chunk index and a version counter. The
writer journals the next version of the chunk before it encrypts, keeps the counters in
memory, and marks the journaled versions committed once the write is durable.
-/

namespace ClawHdf5.Filters

open Bytes Stateful

/-! ### Encryption -/

/-- The functions of the external hash and cipher crates. -/
structure CryptoCrates where
  /-- BLAKE3. -/
  hash : Bytes → Fixed 32
  /-- BLAKE3 in key derivation mode, for a context string and the key material. -/
  deriveKey : String → Bytes → Fixed 32
  /-- ChaCha20-Poly1305 encryption of a plaintext with associated data. -/
  aead : Fixed 32 → Fixed 12 → Bytes → Bytes → Option Bytes

abbrev Dek := Fixed 32

inductive ChaCha20Error
  | encryptionFailed
  deriving DecidableEq

/-- The encryption key and the key of the nonce derivation. -/
def deriveSubkeys (crates : CryptoCrates) (dek : Dek) : Dek × Dek :=
  (crates.deriveKey "clawhdf5 chacha20 encryption key v1" dek.1,
    crates.deriveKey "clawhdf5 chacha20 nonce-kdf key v1" dek.1)

def deriveNonce (crates : CryptoCrates) (dek : Dek) (chunkIdx version : UInt64) : Fixed 12 :=
  (crates.deriveKey "clawhdf5 chacha20 nonce v1"
    (dek.1 ++ (le64 chunkIdx ++ le64 version))).slice 0 12 (by decide)

/-- Encrypt a plaintext. A key of 32 bytes is never of the wrong length. -/
def encrypt (crates : CryptoCrates) (dek : Dek) (nonce : Fixed 12) (plaintext aad : Bytes) :
    Except ChaCha20Error Bytes :=
  match crates.aead dek nonce plaintext aad with
  | some ciphertext => .ok ciphertext
  | none => .error .encryptionFailed

def encryptChunk (crates : CryptoCrates) (dek : Dek) (chunkIdx version : UInt64)
    (plaintext : Bytes) : Except ChaCha20Error Bytes :=
  let (encKey, kdfKey) := deriveSubkeys crates dek
  encrypt crates encKey (deriveNonce crates kdfKey chunkIdx version) plaintext []

/-! ### Version counters -/

structure VersionCounterStore where
  counters : Std.TreeMap UInt64 UInt64
  /-- The largest version seen. -/
  maxVersion : UInt64

namespace VersionCounterStore

/-- No chunk was written. -/
def new : VersionCounterStore := ⟨∅, 0⟩

def withCounters (counters : Std.TreeMap UInt64 UInt64) : VersionCounterStore :=
  ⟨counters, counters.values.foldl max 0⟩

/-- The counter of a chunk, zero when it was never written. -/
def get (store : VersionCounterStore) (chunkIdx : UInt64) : UInt64 :=
  store.counters[chunkIdx]?.getD 0

def nextVersion (store : VersionCounterStore) (chunkIdx : UInt64) : UInt64 :=
  store.get chunkIdx + 1

/-- Raise the counter of a chunk to at least `version`. -/
def seed (store : VersionCounterStore) (chunkIdx version : UInt64) : VersionCounterStore where
  counters :=
    if version > store.get chunkIdx then store.counters.insert chunkIdx version
    else store.counters
  maxVersion := if version > store.maxVersion then version else store.maxVersion

section

variable (store : VersionCounterStore)
include store

/-- Seeding raises one counter and touches no other. -/
theorem get_seed (chunkIdx version other : UInt64) : (store.seed chunkIdx version).get other =
      if other = chunkIdx ∧ store.get chunkIdx < version then version else store.get other := by
  by_cases hgt : store.get chunkIdx < version
  · have hcounters : (store.seed chunkIdx version).counters =
        store.counters.insert chunkIdx version := if_pos hgt
    rw [get, hcounters, Std.TreeMap.getElem?_insert]
    by_cases hother : other = chunkIdx
    · subst hother
      rw [if_pos (Std.compare_eq_iff_eq.mpr rfl), if_pos ⟨rfl, hgt⟩, Option.getD_some]
    · rw [if_neg fun h => hother (Std.compare_eq_iff_eq.mp h).symm, if_neg fun h => hother h.1]
      rfl
  · have hcounters : (store.seed chunkIdx version).counters = store.counters := if_neg hgt
    rw [get, hcounters, if_neg fun h => hgt h.2]
    rfl

theorem get_le_get_seed (chunkIdx version other : UInt64) :
    store.get other ≤ (store.seed chunkIdx version).get other := by
  rw [get_seed]
  split_ifs with h
  · rw [h.1]
    exact UInt64.le_of_lt h.2
  · exact UInt64.le_refl _

theorem le_get_seed (chunkIdx version : UInt64) :
    version ≤ (store.seed chunkIdx version).get chunkIdx := by
  rw [get_seed]
  split_ifs with h
  · exact UInt64.le_refl _
  · exact UInt64.not_lt.mp fun hlt => h ⟨rfl, hlt⟩

/-- A store that counts a list of journaled versions as consumed. -/
def seedAll (store : VersionCounterStore) (journal : List Journaled) : VersionCounterStore :=
  journal.foldl (fun store p => store.seed p.1 p.2.1) store

theorem get_le_get_seedAll (journal : List Journaled) (c : UInt64) :
    store.get c ≤ (store.seedAll journal).get c := by
  induction journal generalizing store with
  | nil => exact UInt64.le_refl _
  | cons p journal ih => exact UInt64.le_trans (store.get_le_get_seed p.1 p.2.1 c) (ih _)

end

theorem le_get_seedAll {journal : List Journaled} {p : Journaled} (hp : p ∈ journal)
    (store : VersionCounterStore) : p.2.1 ≤ (store.seedAll journal).get p.1 := by
  induction journal generalizing store with
  | nil => cases hp
  | cons q journal ih =>
    rcases List.mem_cons.mp hp with rfl | hp
    · exact UInt64.le_trans (store.le_get_seed p.1 p.2.1) (get_le_get_seedAll _ journal p.1)
    · exact ih hp _

end VersionCounterStore

/-! ### The writer -/

inductive EncryptedWriteError
  | wal (source : WalError)
  | encryption (source : ChaCha20Error)
  deriving DecidableEq

structure EncryptedChunkResult where
  ciphertext : Bytes
  version : UInt64
  chunkIdx : UInt64
  deriving DecidableEq

/-- A writer of encrypted chunks over the storage `W` of its log. -/
structure EncryptedChunkWriter (W : Type) where
  dek : Dek
  wal : VersionWal W
  versions : VersionCounterStore
  /-- The counter of dataset versions, raised by every commit in write order. -/
  datasetVersion : UInt64

namespace EncryptedChunkWriter

variable {W : Type} {α : Type}

def withDatasetVersion (dek : Dek) (wal : VersionWal W) (versions : VersionCounterStore)
    (datasetVersion : UInt64) : EncryptedChunkWriter W :=
  ⟨dek, wal, versions, datasetVersion⟩

/-- A writer for a fresh dataset. -/
def new (dek : Dek) (wal : VersionWal W) (versions : VersionCounterStore) :
    EncryptedChunkWriter W :=
  withDatasetVersion dek wal versions 0

/-- An operation of the writer's log. -/
def onWal (x : EStateM WalError (VersionWal W) α) :
    EStateM EncryptedWriteError (EncryptedChunkWriter W) α :=
  within wal (fun writer wal => { writer with wal := wal }) .wal x

theorem ensures_onWal {x : EStateM WalError (VersionWal W) α}
    {writer : EncryptedChunkWriter W} {Q : α → EncryptedChunkWriter W → Prop}
    {R : EncryptedWriteError → EncryptedChunkWriter W → Prop} :
    Ensures Q R (onWal x writer) ↔ Ensures (fun a wal => Q a { writer with wal := wal })
        (fun e wal => R (.wal e) { writer with wal := wal }) (x writer.wal) :=
  ensures_within

/-- Raise the counter of a chunk. -/
def seed (chunkIdx version : UInt64) (writer : EncryptedChunkWriter W) : EncryptedChunkWriter W :=
  { writer with versions := writer.versions.seed chunkIdx version }

theorem keeps_datasetVersion_onWal (x : EStateM WalError (VersionWal W) α) :
    Keeps datasetVersion (onWal x) :=
  keeps_within fun _ _ => rfl

theorem keeps_datasetVersion_seed (chunkIdx version : UInt64) :
    Keeps datasetVersion (modify (seed chunkIdx version) :
      EStateM EncryptedWriteError (EncryptedChunkWriter W) _) :=
  keeps_modify fun _ => rfl

theorem foldl_seed (journal : List Journaled) (writer : EncryptedChunkWriter W) :
    journal.foldl (fun writer p => seed p.1 p.2.1 writer) writer =
      { writer with versions := writer.versions.seedAll journal } := by
  induction journal generalizing writer with
  | nil => rfl
  | cons p journal ih => exact ih _

variable [Storage W]

/-- Encrypt a chunk under its next version. The version is journaled before the nonce is
derived, and reserved in memory before anything else can ask for one. -/
def encryptChunk (crates : CryptoCrates) (chunkIdx : UInt64) (plaintext : Bytes) :
    EStateM EncryptedWriteError (EncryptedChunkWriter W) EncryptedChunkResult := do
  let writer ← get
  let version := writer.versions.nextVersion chunkIdx
  onWal (VersionWal.journalVersion chunkIdx version (crates.hash plaintext))
  modify (seed chunkIdx version)
  match Filters.encryptChunk crates writer.dek chunkIdx version plaintext with
  | .ok ciphertext => return ⟨ciphertext, version, chunkIdx⟩
  | .error e => throw (.encryption e)

def commit (chunkIdx version : UInt64) :
    EStateM EncryptedWriteError (EncryptedChunkWriter W) Unit := do
  modify (seed chunkIdx version)
  onWal (VersionWal.commitVersion chunkIdx)

/-- Recover the versions journaled and not committed, and treat them as consumed. -/
def recover : EStateM EncryptedWriteError (EncryptedChunkWriter W) (List Journaled) := do
  let uncommitted ← onWal VersionWal.recover
  modify fun writer => uncommitted.foldl (fun writer p => seed p.1 p.2.1 writer) writer
  return uncommitted

/-! ### Frame of the dataset version -/

theorem keeps_datasetVersion_encryptChunk (crates : CryptoCrates) (chunkIdx : UInt64)
    (plaintext : Bytes) :
    Keeps datasetVersion (encryptChunk crates chunkIdx plaintext :
      EStateM EncryptedWriteError (EncryptedChunkWriter W) _) := by
  refine keeps_get.bind fun writer => (keeps_datasetVersion_onWal _).bind fun _ =>
    (keeps_datasetVersion_seed _ _).bind fun _ => ?_
  cases Filters.encryptChunk crates writer.dek chunkIdx (writer.versions.nextVersion chunkIdx)
      plaintext with
  | ok ciphertext => exact keeps_pure _
  | error e => exact fun _ => rfl

theorem keeps_datasetVersion_commit (chunkIdx version : UInt64) :
    Keeps datasetVersion (commit chunkIdx version :
      EStateM EncryptedWriteError (EncryptedChunkWriter W) _) :=
  (keeps_datasetVersion_seed _ _).bind fun _ => keeps_datasetVersion_onWal _

theorem keeps_datasetVersion_recover :
    Keeps datasetVersion (recover : EStateM EncryptedWriteError (EncryptedChunkWriter W) _) := by
  refine (keeps_datasetVersion_onWal _).bind fun uncommitted => Keeps.bind ?_ fun _ => keeps_pure _
  refine keeps_modify fun writer => ?_
  rw [foldl_seed]

end EncryptedChunkWriter

end ClawHdf5.Filters
