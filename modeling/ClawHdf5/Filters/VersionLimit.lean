import ClawHdf5.Filters.NonceSafety

/-!
# Version counters at the end of their range

A version counter that was read from a file can hold any word, and the version of the next write
is the counter plus one in 64-bit arithmetic. Below the largest word every write of a chunk is
given a version above all those given before it. At the largest word the next version wraps
around to zero; the counter, which is only ever raised, does not follow, and every further write
of the chunk is given version zero again.
-/

namespace ClawHdf5.Filters

open Bytes Stateful MachineInt VersionCounterStore

/-! ### Stored counters -/

namespace VersionCounterStore

/-- Read `n` counters from `offset` on into a map. A later entry of a chunk replaces an earlier
one. -/
def readCounters (buf : Bytes) :
    ℕ → ℕ → Std.TreeMap UInt64 UInt64 → Std.TreeMap UInt64 UInt64
  | 0, _, counters => counters
  | n + 1, offset, counters =>
    let chunkIdx := ofLe64 ((buf.drop offset).take 8)
    let version := ofLe64 ((buf.drop (offset + 8)).take 8)
    readCounters buf n (offset + 16) (counters.insert chunkIdx version)

/-- The counters of a byte string: their number, and a chunk index and a version for each. The
number is not trusted, so the length it asks for is computed with checks for overflow. -/
def fromBytes (buf : Bytes) : Except WalError VersionCounterStore :=
  if buf.length < 8 then .error (.bufferTooShort 8 buf.length)
  else
    let count := ofLe64 (buf.take 8)
    match (checkedMul count 16).bind (checkedAdd · 8) with
    | none => .error (.bufferTooShort maxU64.toNat buf.length)
    | some expectedLen =>
      if buf.length < expectedLen.toNat then
        .error (.bufferTooShort expectedLen.toNat buf.length)
      else .ok (withCounters (readCounters buf count.toNat 8 ∅))

end VersionCounterStore

/-! ### Calls -/

/-- A call of the writer that involves version counters. -/
inductive VersionCall
  | encryptChunk (chunkIdx : UInt64) (plaintext : Bytes)
  | commit (chunkIdx version : UInt64)
  deriving DecidableEq

namespace EncryptedChunkWriter

theorem keeps_versions_onWal {W α : Type} (x : EStateM WalError (VersionWal W) α) :
    Keeps versions (onWal x) :=
  keeps_within fun _ _ => rfl

variable {W : Type} [Storage W]

/-- The writer after a call, and the chunk and version handed out by it. A call that fails leaves
the writer in the state in which it failed. -/
def call (crates : CryptoCrates) (writer : EncryptedChunkWriter W) :
    VersionCall → EncryptedChunkWriter W × Option (UInt64 × UInt64)
  | .encryptChunk chunkIdx plaintext =>
    match encryptChunk crates chunkIdx plaintext writer with
    | .ok result writer' => (writer', some (result.chunkIdx, result.version))
    | .error _ writer' => (writer', none)
  | .commit chunkIdx version => (finalState (commit chunkIdx version writer), none)

/-- The chunks and versions handed out by a sequence of calls. -/
def handOut (crates : CryptoCrates) (writer : EncryptedChunkWriter W) :
    List VersionCall → List (UInt64 × UInt64)
  | [] => []
  | c :: calls =>
    let after := writer.call crates c
    after.2.toList ++ after.1.handOut crates calls

/-- A call that does not encrypt a chunk whose counter stands at the largest word. -/
def HasRoom (writer : EncryptedChunkWriter W) : VersionCall → Prop
  | .encryptChunk chunkIdx _ => writer.versions.get chunkIdx < maxU64
  | .commit _ _ => True

instance (writer : EncryptedChunkWriter W) : DecidablePred writer.HasRoom
  | .encryptChunk _ _ => UInt64.decLt _ _
  | .commit _ _ => isTrue trivial

/-- Every call has room in the state in which it is made. -/
def AllHaveRoom (crates : CryptoCrates) (writer : EncryptedChunkWriter W) :
    List VersionCall → Prop
  | [] => True
  | c :: calls => writer.HasRoom c ∧ (writer.call crates c).1.AllHaveRoom crates calls

instance decidableAllHaveRoom (crates : CryptoCrates) :
    ∀ (writer : EncryptedChunkWriter W) (calls : List VersionCall),
      Decidable (writer.AllHaveRoom crates calls)
  | _, [] => isTrue trivial
  | writer, c :: calls =>
    have := decidableAllHaveRoom crates (writer.call crates c).1 calls
    inferInstanceAs (Decidable (_ ∧ _))

/-! ### Counters along a run -/

/-- Encrypting hands out the next version and raises the counter to it, unless the version could
not be journaled. No law of the storage is needed. -/
theorem ensures_versions_encryptChunk (crates : CryptoCrates) (chunkIdx : UInt64)
    (plaintext : Bytes) (writer : EncryptedChunkWriter W) :
    Ensures (fun result writer' => result.chunkIdx = chunkIdx ∧
        result.version = writer.versions.nextVersion chunkIdx ∧
        writer'.versions = writer.versions.seed chunkIdx (writer.versions.nextVersion chunkIdx))
      (fun _ writer' => writer'.versions = writer.versions ∨
        writer'.versions = writer.versions.seed chunkIdx (writer.versions.nextVersion chunkIdx))
      (encryptChunk crates chunkIdx plaintext writer) := by
  apply (keeps_versions_onWal _ writer).seq fun _ _ => Or.inl
  intro _ writer₁ hversions
  rw [ensures_modify_bind, seed, hversions]
  cases Filters.encryptChunk crates writer.dek chunkIdx (writer.versions.nextVersion chunkIdx)
      plaintext with
  | ok ciphertext => exact ⟨rfl, rfl, rfl⟩
  | error e => exact Or.inr rfl

/-- A call lowers no counter. -/
theorem get_le_get_call (crates : CryptoCrates) (writer : EncryptedChunkWriter W)
    (c : VersionCall) (chunk : UInt64) :
    writer.versions.get chunk ≤ (writer.call crates c).1.versions.get chunk := by
  cases c with
  | encryptChunk chunkIdx plaintext =>
    have hrun := ensures_versions_encryptChunk crates chunkIdx plaintext writer
    rw [call]
    cases hres : encryptChunk crates chunkIdx plaintext writer with
    | ok result writer' =>
      rw [hres] at hrun
      rw [hrun.2.2]
      exact get_le_get_seed _ _ _ _
    | error e writer' =>
      rw [hres] at hrun
      rcases hrun with hkept | hraised
      · rw [hkept]
        exact UInt64.le_refl _
      · rw [hraised]
        exact get_le_get_seed _ _ _ _
  | commit chunkIdx version =>
    have hseed := (keeps_versions_onWal (VersionWal.commitVersion chunkIdx)).finalState
      (seed chunkIdx version writer)
    change _ ≤ (finalState (onWal _ (seed chunkIdx version writer))).versions.get chunk
    rw [hseed]
    exact get_le_get_seed _ _ _ _

section

variable {crates : CryptoCrates} {writer : EncryptedChunkWriter W}

/-- A version that is handed out with room above the counter lies between the counters before and
after the call. -/
theorem lt_and_le_of_call {c : VersionCall} {p : UInt64 × UInt64}
    (hcall : (writer.call crates c).2 = some p) (hroom : writer.HasRoom c) :
    writer.versions.get p.1 < p.2 ∧ p.2 ≤ (writer.call crates c).1.versions.get p.1 := by
  cases c with
  | commit chunkIdx version => cases hcall
  | encryptChunk chunkIdx plaintext =>
    have hrun := ensures_versions_encryptChunk crates chunkIdx plaintext writer
    rw [call] at hcall ⊢
    cases hres : encryptChunk crates chunkIdx plaintext writer with
    | error e writer' =>
      rw [hres] at hcall
      cases hcall
    | ok result writer' =>
      rw [hres] at hcall hrun
      obtain ⟨hchunk, hversion, hversions⟩ := hrun
      cases hcall
      rw [hchunk, hversion, hversions]
      exact ⟨lt_add_one_of_lt_maxU64 hroom, le_get_seed _ _ _⟩

/-- Along calls that have room, every version handed out is above the counter at the start. -/
theorem lt_of_mem_handOut {calls : List VersionCall} (hroom : writer.AllHaveRoom crates calls) :
    ∀ p ∈ writer.handOut crates calls, writer.versions.get p.1 < p.2 := by
  induction calls generalizing writer with
  | nil =>
    intro p hp
    cases hp
  | cons c calls ih =>
    intro p hp
    obtain ⟨hfirst, hrest⟩ := hroom
    rcases List.mem_append.mp hp with hnow | hlater
    · exact (lt_and_le_of_call (Option.mem_toList.mp hnow) hfirst).1
    · exact UInt64.lt_of_le_of_lt (get_le_get_call crates writer c p.1) (ih hrest p hlater)

/-- Along calls that have room, the versions of a chunk increase. -/
theorem pairwise_handOut {calls : List VersionCall} (hroom : writer.AllHaveRoom crates calls) :
    (writer.handOut crates calls).Pairwise fun p q => p.1 = q.1 → p.2 < q.2 := by
  induction calls generalizing writer with
  | nil => exact List.Pairwise.nil
  | cons c calls ih =>
    obtain ⟨hfirst, hrest⟩ := hroom
    refine List.pairwise_append.mpr ⟨?_, ih hrest, ?_⟩
    · cases (writer.call crates c).2 with
      | none => exact List.Pairwise.nil
      | some p => exact List.pairwise_singleton _ _
    · -- What is handed out later lies above the counter that this version raised.
      intro p hp q hq hchunk
      have hle := (lt_and_le_of_call (Option.mem_toList.mp hp) hfirst).2
      rw [hchunk] at hle
      exact UInt64.lt_of_le_of_lt hle (lt_of_mem_handOut hrest q hq)

end

/-- A writer over any stored counters hands out, for each chunk, distinct versions above the
stored counter, as long as no chunk is encrypted while its counter stands at the largest word. -/
theorem handOut_distinct (crates : CryptoCrates) (store : VersionCounterStore) (dek : Dek)
    (wal : VersionWal W) (datasetVersion : UInt64) {calls : List VersionCall}
    (hroom : (withDatasetVersion dek wal store datasetVersion).AllHaveRoom crates calls) :
    (∀ p ∈ (withDatasetVersion dek wal store datasetVersion).handOut crates calls,
        store.get p.1 < p.2) ∧
      ((withDatasetVersion dek wal store datasetVersion).handOut crates calls).Nodup := by
  refine ⟨lt_of_mem_handOut hroom, (pairwise_handOut hroom).imp ?_⟩
  intro p q hlt heq
  rw [heq] at hlt
  exact UInt64.lt_irrefl _ (hlt rfl)

/-- BLAKE3 and ChaCha20-Poly1305 on what the two runs below ask of them besides `sampleCrates`:
the first and the last two versions of chunk 7. -/
def limitCrates : CryptoCrates where
  hash := Session.sampleCrates.hash
  deriveKey context material :=
    if context = "clawhdf5 chacha20 nonce v1" then
      ⟨beBytes 32 <|
        if material.drop 40 = le64 0 then
          0x554bf5abcc0acaa85f5c01685d961513e519f45fdb61d2347fc35bb0467371e5
        else if material.drop 40 = le64 0xfffffffffffffffe then
          0xbeca6a05420c9de6c50b707ca8430626d982990353b6f52255f7d5661b790380
        else 0xac1fee4185571d0e2b32cc4b67ae8dd9175723e59f3cd12999c893495905f16a,
        length_beBytes 32 _⟩
    else Session.sampleCrates.deriveKey context material
  aead _ nonce plaintext _ := some <| beBytes 17 <|
    if nonce.1 = beBytes 12 0x554bf5abcc0acaa85f5c0168 then
      if plaintext = [0x41] then 0x4e111549fe33efefa7861fd9e23e5bcc74
      else 0x4d788d54235ebbc812d9f7a96c3f5e8546
    else if nonce.1 = beBytes 12 0xbeca6a05420c9de6c50b707c then
      0xbf034005a8340cb70299856c8f43674419
    else 0x857e0ebd63fa11cc76784060f427a510aa

/-- One stored counter, of chunk 7, behind the number of counters. -/
def storedCounter (version : UInt64) : Bytes := le64 1 ++ (le64 7 ++ le64 version)

/-- A writer over one stored counter and an empty log. -/
def limitWriter (store : VersionCounterStore) : EncryptedChunkWriter Cursor :=
  withDatasetVersion Session.sampleDek ⟨⟨walHeader, 8⟩, 16, 0⟩ store 0

theorem handOut_distinct_last_two :
    ∃ store, VersionCounterStore.fromBytes (storedCounter 0xfffffffffffffffd) = .ok store ∧
      (limitWriter store).handOut limitCrates
          [.encryptChunk 7 [0x41], .commit 7 0xfffffffffffffffe, .encryptChunk 7 [0x42]] =
        [(7, 0xfffffffffffffffe), (7, 0xffffffffffffffff)] ∧
      ((limitWriter store).handOut limitCrates
        [.encryptChunk 7 [0x41], .commit 7 0xfffffffffffffffe, .encryptChunk 7 [0x42]]).Nodup := by
  refine Exists.imp (p := fun store => _ ∧ (limitWriter store).AllHaveRoom limitCrates _ ∧ _)
    (fun store h => ⟨h.1, h.2.2, (handOut_distinct limitCrates store _ _ _ h.2.1).2⟩) ?_
  decide +kernel

/-- A stored counter at the largest word. Two writes of the chunk are both given version zero,
which is not above the counter, and so both use the nonce of that version. -/
theorem handOut_repeats :
    ∃ store, VersionCounterStore.fromBytes (storedCounter 0xffffffffffffffff) = .ok store ∧
      (limitWriter store).handOut limitCrates [.encryptChunk 7 [0x41], .encryptChunk 7 [0x42]] =
        [(7, 0), (7, 0)] ∧ ¬ store.get 7 < 0 := by
  decide +kernel

end EncryptedChunkWriter

end ClawHdf5.Filters
