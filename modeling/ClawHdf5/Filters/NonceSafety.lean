import ClawHdf5.Filters.ChunkWriter
import ClawHdf5.Filters.WalRefinement
import ClawHdf5.Math.MachineInt

/-!
# Nonce reuse across crashes

A session is a writer together with what survives a crash besides the log: the companion
counter of each chunk, which holds the version of the chunk's last successful commit. After a
crash the log is reopened, the counters start from the companion and the pending versions of
the log are recovered on top.

A commit sweeps all pending records of its chunk, also those of versions above the one it
commits. The companion counter then lies below a version that was used and that no record
reserves any more, and after a crash that version is handed out again. Runs whose commits
never leave such a version behind derive every nonce once.
-/

namespace ClawHdf5.Filters

open Bytes Stateful LawfulStorage MachineInt List VersionWal EncryptedChunkWriter
  VersionCounterStore

/-! ### Operations of the writer -/

namespace EncryptedChunkWriter

variable {W : Type}

variable [Storage W] [LawfulStorage W] {writer : EncryptedChunkWriter W} {pending : List Journaled}

/-- The state after a chunk was given its next version. -/
structure Reserved (crates : CryptoCrates) (chunkIdx : UInt64) (plaintext : Bytes)
    (pending : List Journaled) (writer writer' : EncryptedChunkWriter W) : Prop where
  holds : writer'.wal.Holds
    (pending ++ [(chunkIdx, writer.versions.nextVersion chunkIdx, crates.hash plaintext)])
  versions_eq : writer'.versions =
    writer.versions.seed chunkIdx (writer.versions.nextVersion chunkIdx)

/-- Encrypting reserves the next version of the chunk, also when the cipher fails; a log that
is full changes nothing. -/
theorem ensures_encryptChunk (crates : CryptoCrates) (chunkIdx : UInt64) (plaintext : Bytes)
    (h : writer.wal.Holds pending) :
    Ensures (fun result writer' => result.version = writer.versions.nextVersion chunkIdx ∧
        Reserved crates chunkIdx plaintext pending writer writer')
      (fun e writer' => (∃ source, e = .encryption source) ∧
          Reserved crates chunkIdx plaintext pending writer writer' ∨
        (∃ source, e = .wal source) ∧ (writer' = writer ∨ mayFail W))
      (encryptChunk crates chunkIdx plaintext writer) := by
  rw [encryptChunk]
  have hjournal : Ensures (fun _ writer' => writer'.wal.Holds
          (pending ++ [(chunkIdx, writer.versions.nextVersion chunkIdx, crates.hash plaintext)]) ∧
        writer'.versions = writer.versions)
      (fun e writer' => (∃ source, e = .wal source) ∧ (writer' = writer ∨ mayFail W))
      (onWal (journalVersion chunkIdx (writer.versions.nextVersion chunkIdx)
        (crates.hash plaintext)) writer) := by
    rw [ensures_onWal]
    refine (ensures_journal_with (holds_iff.mp h) _ _ _).mono ?_ ?_
    · intro _ wal hholds
      exact ⟨holds_iff.mpr hholds, rfl⟩
    · rintro e wal (⟨-, rfl⟩ | hfail)
      · exact ⟨⟨e, rfl⟩, .inl rfl⟩
      · exact ⟨⟨e, rfl⟩, .inr hfail⟩
  apply hjournal.seq fun _ _ => Or.inr
  rintro _ writer₁ ⟨hholds, hversions⟩
  have hreserved : Reserved crates chunkIdx plaintext pending writer
      (seed chunkIdx (writer.versions.nextVersion chunkIdx) writer₁) := by
    refine ⟨hholds, ?_⟩
    rw [seed, hversions]
  cases Filters.encryptChunk crates writer.dek chunkIdx (writer.versions.nextVersion chunkIdx)
      plaintext with
  | ok ciphertext => exact ⟨rfl, hreserved⟩
  | error e => exact Or.inl ⟨⟨e, rfl⟩, hreserved⟩

/-- Committing sweeps the versions of a chunk, and raises its counter even when it fails. -/
theorem ensures_commit (chunkIdx version : UInt64) (h : writer.wal.Holds pending) :
    Ensures (fun _ writer' => (∃ p ∈ pending, p.1 = chunkIdx) ∧
        writer'.wal.Holds (pending.filter (·.1 ≠ chunkIdx)) ∧
        writer'.versions = writer.versions.seed chunkIdx version)
      (fun _ writer' => writer'.wal.Holds pending ∧
        writer'.versions = writer.versions.seed chunkIdx version ∨ mayFail W)
      (commit chunkIdx version writer) := by
  rw [commit, ensures_modify_bind, ensures_onWal]
  simp only [holds_iff] at h ⊢
  refine (ensures_commit_with h chunkIdx).mono ?_ ?_
  · rintro _ wal ⟨hfound, hholds⟩
    exact ⟨hfound, hholds, rfl⟩
  · rintro e wal (⟨-, -, hholds⟩ | hfail)
    · exact .inl ⟨hholds, rfl⟩
    · exact .inr hfail

/-- Recovery counts the pending versions as consumed. -/
theorem ensures_recover (h : writer.wal.Holds pending) :
    Ensures (fun _ writer' => writer'.wal.Holds pending ∧
        writer'.versions = writer.versions.seedAll pending)
      (fun _ _ => False) (recover writer) := by
  have hwal : Ensures (fun found writer' => found = pending ∧ writer'.wal.Holds pending ∧
        writer'.versions = writer.versions)
      (fun _ _ => False) (onWal VersionWal.recover writer) := by
    rw [ensures_onWal]
    refine (ensures_recover_with (holds_iff.mp h)).mono ?_ fun _ _ h => h
    rintro found wal ⟨rfl, hholds⟩
    exact ⟨rfl, holds_iff.mpr hholds, rfl⟩
  apply hwal.bind
  rintro _ writer₁ ⟨rfl, hholds, hversions⟩
  rw [ensures_modify_bind, foldl_seed, hversions]
  exact ⟨hholds, rfl⟩

end EncryptedChunkWriter

/-! ### Sessions -/

/-- A writer, what survives its crashes besides the log, and the nonces derived so far. -/
structure Session (W : Type) where
  writer : EncryptedChunkWriter W
  /-- The version of the last successful commit of each chunk. -/
  companion : Std.TreeMap UInt64 UInt64
  /-- The chunk and the version of every nonce derived, the latest first. -/
  derived : List (UInt64 × UInt64)

/-- What can happen to a session. -/
inductive Action
  | encryptChunk (chunkIdx : UInt64) (plaintext : Bytes)
  | commit (chunkIdx version : UInt64)
  | compact
  /-- Lose the writer and reopen the log, with a new capacity. -/
  | crash (maxRecords : ℕ)
  deriving DecidableEq

namespace Session

variable {W : Type} [Storage W] [LawfulStorage W]

/-- Open a log that survived a crash, and recover before any new write. -/
def reopen (dek : Dek) (log : Bytes) (companion : Std.TreeMap UInt64 UInt64)
    (datasetVersion : UInt64) (maxRecords : ℕ) :
    Except EncryptedWriteError (EncryptedChunkWriter W) :=
  match VersionWal.new (mount log : W) maxRecords with
  | .ok wal => stateOf (EncryptedChunkWriter.recover
      (.withDatasetVersion dek wal (.withCounters companion) datasetVersion))
  | .error e => .error (.wal e)

/-- A session over an empty storage. -/
def start (dek : Dek) (storage : W) (maxRecords : ℕ) : Except WalError (Session W) := do
  let wal ← VersionWal.new storage maxRecords
  return ⟨.new dek wal .new, ∅, []⟩

/-- The session after an action. Only a log that cannot be reopened ends it. -/
def step (crates : CryptoCrates) (s : Session W) :
    Action → Except EncryptedWriteError (Session W)
  | .encryptChunk chunkIdx plaintext =>
    match EncryptedChunkWriter.encryptChunk crates chunkIdx plaintext s.writer with
    | .ok result writer =>
      .ok { s with writer := writer, derived := (chunkIdx, result.version) :: s.derived }
    -- The cipher failed under a nonce that was already derived.
    | .error (.encryption _) writer =>
      .ok { s with
        writer := writer
        derived := (chunkIdx, s.writer.versions.nextVersion chunkIdx) :: s.derived }
    | .error (.wal _) writer => .ok { s with writer := writer }
  | .commit chunkIdx version =>
    match EncryptedChunkWriter.commit chunkIdx version s.writer with
    | .ok _ writer =>
      .ok { s with writer := writer, companion := s.companion.insert chunkIdx version }
    | .error _ writer => .ok { s with writer := writer }
  | .compact =>
    match EncryptedChunkWriter.onWal VersionWal.compact s.writer with
    | .ok _ writer => .ok { s with writer := writer }
    | .error _ writer => .ok { s with writer := writer }
  | .crash maxRecords => do
    let writer ← reopen s.writer.dek (bytes s.writer.wal.writer) s.companion
      s.writer.datasetVersion maxRecords
    return { s with writer := writer }

/-- The session after a sequence of actions. -/
def run (crates : CryptoCrates) (s : Session W) :
    List Action → Except EncryptedWriteError (Session W)
  | [] => .ok s
  | action :: actions => do
    let s' ← s.step crates action
    s'.run crates actions

/-- The records that are pending in the log. -/
def pending (s : Session W) : List Journaled :=
  match VersionWal.recover s.writer.wal with
  | .ok pending _ => pending
  | .error _ _ => []

/-- An action that leaves no version above what a crash preserves: the counter of an encrypted
chunk can still be raised, and a commit of pending records is not below a version already used. -/
def Covers (s : Session W) : Action → Prop
  | .encryptChunk chunkIdx _ => s.writer.versions.get chunkIdx < maxU64
  | .commit chunkIdx version => (∃ p ∈ s.pending, p.1 = chunkIdx) →
      ∀ p ∈ s.derived, p.1 = chunkIdx → p.2 ≤ version
  | .compact => True
  | .crash _ => True

instance (s : Session W) : DecidablePred s.Covers
  | .encryptChunk _ _ => UInt64.decLt _ _
  | .commit chunkIdx version =>
    -- Decided over the lists: the words themselves are a finite type, but a large one.
    have hpending := List.decidableBEx (fun p => p.1 = chunkIdx) s.pending
    have hderived := List.decidableBAll (fun p => p.1 = chunkIdx → p.2 ≤ version) s.derived
    @instDecidableForall _ _ hpending hderived
  | .compact => isTrue trivial
  | .crash _ => isTrue trivial

/-- A run all of whose actions cover the versions used before them. -/
def CoversAll (crates : CryptoCrates) (s : Session W) : List Action → Prop
  | [] => True
  | action :: actions =>
    s.Covers action ∧
      match s.step crates action with
      | .ok s' => s'.CoversAll crates actions
      | .error _ => True

instance decidableCoversAll (crates : CryptoCrates) :
    ∀ (s : Session W) (actions : List Action), Decidable (s.CoversAll crates actions)
  | _, [] => isTrue trivial
  | s, action :: actions =>
    match h : s.step crates action with
    | .ok s' =>
      have := decidableCoversAll crates s' actions
      decidable_of_iff (s.Covers action ∧ s'.CoversAll crates actions)
        (by simp only [CoversAll, h])
    | .error _ => decidable_of_iff (s.Covers action) (by simp only [CoversAll, h, and_true])

/-- No nonce was derived twice, and every version used lies below its counter in memory and
below what a crash preserves of it: the companion counter or a pending record. -/
structure Safe (s : Session W) (pending : List Journaled) : Prop where
  holds : s.writer.wal.Holds pending
  nodup : s.derived.Nodup
  counted : ∀ c used, (c, used) ∈ s.derived → used ≤ s.writer.versions.get c
  durable : ∀ c used, (c, used) ∈ s.derived →
    used ≤ s.companion[c]?.getD 0 ∨ ∃ p ∈ pending, p.1 = c ∧ used ≤ p.2.1

section

variable {crates : CryptoCrates} {s : Session W} {pending : List Journaled}

theorem Safe.pending_eq (h : s.Safe pending) : s.pending = pending := by
  obtain ⟨found, wal, hrun, rfl, -⟩ :=
    ensures_exists_ok (ensures_recover_with (holds_iff.mp h.holds))
  rw [Session.pending, hrun]

/-- A chunk that was given its next version. -/
theorem Safe.reserve {chunkIdx : UInt64} {plaintext : Bytes} {writer : EncryptedChunkWriter W}
    (h : s.Safe pending) (hroom : s.writer.versions.get chunkIdx < maxU64)
    (hres : EncryptedChunkWriter.Reserved crates chunkIdx plaintext pending s.writer writer) :
    Safe { s with
        writer := writer
        derived := (chunkIdx, s.writer.versions.nextVersion chunkIdx) :: s.derived }
      (pending ++ [(chunkIdx, s.writer.versions.nextVersion chunkIdx, crates.hash plaintext)]) := by
  have hnext : s.writer.versions.get chunkIdx < s.writer.versions.nextVersion chunkIdx :=
    lt_add_one_of_lt_maxU64 hroom
  refine ⟨hres.holds, ?_, ?_, ?_⟩
  · -- A version above the counter is above every version used.
    refine nodup_cons.mpr ⟨fun hused => ?_, h.nodup⟩
    exact UInt64.lt_irrefl _ (UInt64.lt_of_lt_of_le hnext (h.counted _ _ hused))
  · intro c used hused
    rw [hres.versions_eq]
    rcases mem_cons.mp hused with heq | hold
    · cases heq
      exact le_get_seed _ _ _
    · exact UInt64.le_trans (h.counted c used hold) (get_le_get_seed _ _ _ _)
  · intro c used hused
    rcases mem_cons.mp hused with heq | hold
    · cases heq
      exact .inr ⟨_, mem_append_right _ (mem_singleton.mpr rfl), rfl, UInt64.le_refl _⟩
    · rcases h.durable c used hold with hcomp | ⟨p, hp, hc, hle⟩
      · exact .inl hcomp
      · exact .inr ⟨p, mem_append_left _ hp, hc, hle⟩

theorem Safe.update {writer : EncryptedChunkWriter W} (h : s.Safe pending)
    (hholds : writer.wal.Holds pending)
    (hversions : ∀ c, s.writer.versions.get c ≤ writer.versions.get c) :
    Safe { s with writer := writer } pending :=
  ⟨hholds, h.nodup, fun c used hused => UInt64.le_trans (h.counted c used hused) (hversions c),
    h.durable⟩

/-- A chunk whose versions were swept and whose companion counter covers those used. -/
theorem Safe.sweep {chunkIdx version : UInt64} {writer : EncryptedChunkWriter W}
    (h : s.Safe pending) (hcover : ∀ used, (chunkIdx, used) ∈ s.derived → used ≤ version)
    (hholds : writer.wal.Holds (pending.filter (·.1 ≠ chunkIdx)))
    (hversions : ∀ c, s.writer.versions.get c ≤ writer.versions.get c) :
    Safe { s with writer := writer, companion := s.companion.insert chunkIdx version }
      (pending.filter (·.1 ≠ chunkIdx)) := by
  refine ⟨hholds, h.nodup,
    fun c used hused => UInt64.le_trans (h.counted c used hused) (hversions c), ?_⟩
  intro c used hused
  rw [Std.TreeMap.getElem?_insert]
  by_cases hc : c = chunkIdx
  · subst hc
    rw [if_pos (Std.compare_eq_iff_eq.mpr rfl)]
    exact .inl (hcover used hused)
  · rw [if_neg fun heq => hc (Std.compare_eq_iff_eq.mp heq).symm]
    rcases h.durable c used hused with hcomp | ⟨p, hp, rfl, hle⟩
    · exact .inl hcomp
    · exact .inr ⟨p, mem_filter.mpr ⟨hp, by simpa using hc⟩, rfl, hle⟩

/-- After a crash every version used is counted again. -/
theorem Safe.crash (h : s.Safe pending) (maxRecords : ℕ) :
    ∃ writer : EncryptedChunkWriter W, reopen s.writer.dek (bytes s.writer.wal.writer) s.companion
        s.writer.datasetVersion maxRecords = .ok writer ∧
      Safe { s with writer := writer } pending := by
  obtain ⟨wal, hnew, hholds⟩ := exists_new_with (holds_iff.mp h.holds) maxRecords
  have hopened : (EncryptedChunkWriter.withDatasetVersion s.writer.dek wal
      (.withCounters s.companion) s.writer.datasetVersion).wal.Holds pending :=
    holds_iff.mpr hholds
  obtain ⟨_, writer, hrec, hholds', hversions⟩ :=
    ensures_exists_ok (EncryptedChunkWriter.ensures_recover hopened)
  refine ⟨writer, ?_, hholds', h.nodup, ?_, h.durable⟩
  · simp [reopen, hnew, hrec, stateOf]
  · intro c used hused
    rw [hversions]
    rcases h.durable c used hused with hcomp | ⟨p, hp, rfl, hle⟩
    · exact UInt64.le_trans hcomp (get_le_get_seedAll (.withCounters s.companion) pending c)
    · exact UInt64.le_trans hle (le_get_seedAll hp _)

/-- The invariant survives every covering action. -/
theorem Safe.step (hreliable : ¬ mayFail W) (h : s.Safe pending) {action : Action}
    (hcover : s.Covers action) :
    ∃ s' pending', s.step crates action = .ok s' ∧ s'.Safe pending' := by
  cases action with
  | encryptChunk chunkIdx plaintext =>
    have hrun := ensures_encryptChunk crates chunkIdx plaintext h.holds
    simp only [Session.step]
    cases hres : EncryptedChunkWriter.encryptChunk crates chunkIdx plaintext s.writer with
    | ok result writer =>
      rw [hres] at hrun
      obtain ⟨hversion, hreserved⟩ := hrun
      have hsafe := h.reserve hcover hreserved
      rw [← hversion] at hsafe
      exact ⟨_, _, rfl, hsafe⟩
    | error e writer =>
      rw [hres] at hrun
      rcases hrun with ⟨⟨source, rfl⟩, hreserved⟩ | ⟨⟨source, rfl⟩, rfl | hfail⟩
      · exact ⟨_, _, rfl, h.reserve hcover hreserved⟩
      · exact ⟨_, _, rfl, h⟩
      · exact absurd hfail hreliable
  | commit chunkIdx version =>
    have hrun := ensures_commit chunkIdx version h.holds
    simp only [Session.step]
    cases hres : commit chunkIdx version s.writer with
    | ok u writer =>
      rw [hres] at hrun
      obtain ⟨hfound, hholds, hversions⟩ := hrun
      have hcovered := hcover (h.pending_eq ▸ hfound)
      refine ⟨_, _, rfl, h.sweep (fun used hused => hcovered _ hused rfl) hholds fun c => ?_⟩
      rw [hversions]
      exact get_le_get_seed _ _ _ _
    | error e writer =>
      rw [hres] at hrun
      rcases hrun with ⟨hholds, hversions⟩ | hfail
      · refine ⟨_, _, rfl, h.update hholds fun c => ?_⟩
        rw [hversions]
        exact get_le_get_seed _ _ _ _
      · exact absurd hfail hreliable
  | compact =>
    have hrun := ensures_compact_with (holds_iff.mp h.holds)
    simp only [Session.step, onWal, within]
    cases hres : compact s.writer.wal with
    | ok u wal =>
      rw [hres] at hrun
      exact ⟨_, _, rfl, h.update (holds_iff.mpr hrun) fun c => UInt64.le_refl _⟩
    | error e wal =>
      rw [hres] at hrun
      exact absurd hrun hreliable
  | crash maxRecords =>
    obtain ⟨writer, hreopen, hsafe⟩ := h.crash maxRecords
    exact ⟨_, _, by simp only [Session.step, hreopen]; rfl, hsafe⟩

/-- The invariant survives every run of covering actions. -/
theorem Safe.run (hreliable : ¬ mayFail W) (h : s.Safe pending) {actions : List Action}
    (hcover : s.CoversAll crates actions) :
    ∃ s' pending', s.run crates actions = .ok s' ∧ s'.Safe pending' := by
  induction actions generalizing s pending with
  | nil => exact ⟨s, pending, rfl, h⟩
  | cons action actions ih =>
    obtain ⟨hfirst, hrest⟩ := hcover
    obtain ⟨s₁, pending₁, hstep, hsafe₁⟩ := h.step hreliable hfirst
    rw [hstep] at hrest
    obtain ⟨s₂, pending₂, hrun, hsafe₂⟩ := ih hsafe₁ hrest
    exact ⟨s₂, pending₂, Fallible.bind_ok_iff.mpr ⟨s₁, hstep, hrun⟩, hsafe₂⟩

end

theorem safe_start {dek : Dek} {storage : W} {maxRecords : ℕ} {s : Session W}
    (hempty : bytes storage = []) (hstart : start dek storage maxRecords = .ok s) :
    s.Safe [] := by
  obtain ⟨wal, hnew, hs⟩ := Fallible.bind_ok_iff.mp hstart
  cases hs
  refine ⟨holds_of_new_empty hempty hnew, nodup_nil, ?_, ?_⟩
  · intro c used hused
    cases hused
  · intro c used hused
    cases hused

/-- On a storage that does not fail, a run whose commits cover the versions used before them
derives no nonce twice, whatever it crashes. -/
theorem nodup_derived (hreliable : ¬ mayFail W) (crates : CryptoCrates) {dek : Dek} {storage : W}
    (hempty : bytes storage = []) {maxRecords : ℕ} {s : Session W}
    (hstart : start dek storage maxRecords = .ok s) {actions : List Action}
    (hcover : s.CoversAll crates actions) :
    ∃ s', s.run crates actions = .ok s' ∧ s'.derived.Nodup := by
  obtain ⟨s', _, hrun, hsafe⟩ := (safe_start hempty hstart).run hreliable hcover
  exact ⟨s', hrun, hsafe.nodup⟩

/-- A 32-byte output of the hash crate. -/
private def digest (n : ℕ) : Fixed 32 := ⟨beBytes 32 n, length_beBytes 32 n⟩

/-- A key of the bytes 0 to 31. -/
def sampleDek : Dek := ⟨(range 32).map UInt8.ofNat, rfl⟩

/-- BLAKE3 and ChaCha20-Poly1305 on what the two runs below ask of them: the plaintexts `A`,
`B` and `C`, and the first three versions of chunk 7 under `sampleDek`. -/
def sampleCrates : CryptoCrates where
  hash plaintext :=
    if plaintext = [0x41] then
      digest 0x32684bfa28c0c84d6f210511aace0efc5171c7889148ba89208d5aa29705fa98
    else if plaintext = [0x42] then
      digest 0x9f9524ca18c0cc03aef1a0b84faed9375e5d19575e9328e65fea72991f0f58cf
    else digest 0xfc42a5a555aa7b01572f67aa5fca3e096055e62b818baf3ecd00e4f820cfe6b2
  deriveKey context material :=
    if context = "clawhdf5 chacha20 encryption key v1" then
      digest 0xcfe7da97fc80e3f665e9cc319ba113a0cf910d3c75d4abd5649bdf3414d5fafc
    else if context = "clawhdf5 chacha20 nonce-kdf key v1" then
      digest 0xbe1709a551978246f8663ceef8f7596f6a9a3fd727d00d0ca08d674c1ffbd425
    else if material.drop 40 = le64 1 then
      digest 0x19b4a0d4685145765b239eb5f01c48055efb885bf89e3cb2824e774a576c5067
    else if material.drop 40 = le64 2 then
      digest 0x938faacfe3187041f24b94b7cddf5295545141cb2823ecdd1125c0218eca397f
    else digest 0x48cb2edbcc1954b334cb14c203801a604bcb19ab137d39b24daf362b82ac0584
  aead _ nonce plaintext _ := some <| beBytes 17 <|
    if nonce.1 = beBytes 12 0x19b4a0d4685145765b239eb5 then 0x1cbf2b766b4b5e68b7b4c243f5b6385054
    else if nonce.1 = beBytes 12 0x938faacfe3187041f24b94b7 then
      if plaintext = [0x42] then 0xc76d70750f0c50a609331917bb70c31fdb
      else 0xc6eb3232290e4e312c8ddb602500fb068c
    else 0xd1ca0d93ca965bac9ae38863db083c99e3

/-- Two outstanding versions, of which the newer one is committed. -/
theorem nodup_derived_newest_committed :
    ∃ s s', start sampleDek (⟨[], 0⟩ : Cursor) 16 = .ok s ∧
      s.run sampleCrates [.encryptChunk 7 [0x41], .encryptChunk 7 [0x42], .commit 7 2, .compact,
        .crash 16, .encryptChunk 7 [0x43]] = .ok s' ∧ s'.derived.Nodup :=
  have hstart : start sampleDek (⟨[], 0⟩ : Cursor) 16 =
    .ok ⟨.new sampleDek ⟨⟨walHeader, 8⟩, 16, 0⟩ .new, ∅, []⟩ := rfl
  ⟨_, (nodup_derived id sampleCrates rfl hstart (by decide +kernel)).imp
    fun _ h => ⟨hstart, h⟩⟩

/-- Two outstanding versions, of which the older one is committed. The commit sweeps the record
of the newer one, the companion counter stays below it, and after a crash it is used again. -/
theorem derived_twice :
    ∃ s s', start sampleDek (⟨[], 0⟩ : Cursor) 16 = .ok s ∧
      s.run sampleCrates [.encryptChunk 7 [0x41], .encryptChunk 7 [0x42], .commit 7 1,
        .crash 16, .encryptChunk 7 [0x43]] = .ok s' ∧
      s'.derived = [(7, 2), (7, 2), (7, 1)] ∧ ¬ s'.derived.Nodup := by
  have hstart : start sampleDek (⟨[], 0⟩ : Cursor) 16 =
    .ok ⟨.new sampleDek ⟨⟨walHeader, 8⟩, 16, 0⟩ .new, ∅, []⟩ := rfl
  refine ⟨_, (Fallible.exists_ok_of_map_eq (f := Session.derived)
    (b := [(7, 2), (7, 2), (7, 1)]) (by decide +kernel)).imp fun s' h => ⟨hstart, h.1, h.2, ?_⟩⟩
  rw [h.2]
  decide

end Session

end ClawHdf5.Filters
