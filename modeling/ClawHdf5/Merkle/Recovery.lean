import ClawHdf5.Merkle.Journal
import ClawHdf5.Merkle.Soundness

/-!
# Rollback to a journaled version

A restore selects a record of the provenance journal whose signature verifies, and accepts the
restored dataset if it verifies and its root is the signed one. The dataset comes from a
snapshot, and with it the algorithm and the leaf format its leaves are hashed by.

The root binds the row of leaf preimages, but a content leaf of a longer chunk is byte for
byte a bound leaf of a shorter one: a snapshot that declares content leaves and stores the
bound preimages without their separator has the signed root. The gate accepts the certified
chunks exactly if the snapshot declares the leaf format of the signed tree.
-/

namespace ClawHdf5.Merkle

open Fallible List

inductive RestoreTarget
  | version (v : UInt64)
  | lastKnownGood
  deriving DecidableEq

/-- Why a restore was refused. -/
inductive RestoreError
  | noJournaledRecord (version : UInt64)
  | noKnownGoodVersion
  | signatureInvalid (version : UInt64)
  | datasetVerificationFailed (version : UInt64) (source : Option MerkleError)
  | rootMismatch (version : UInt64)
  deriving DecidableEq

/-- Select the record to restore. The signature check is the caller's. -/
def selectRestoreRecord (journal : ProvenanceJournal) (target : RestoreTarget)
    (verify : ProvenanceRecord → Bool) : Except RestoreError ProvenanceRecord :=
  match target with
  | .version v => do
    let record ← okOr (.noJournaledRecord v) (journal.recordForVersion v)
    reject (verify record = false) (.signatureInvalid v)
    .ok record
  | .lastKnownGood => okOr .noKnownGoodVersion (journal.records.reverse.find? verify)

/-- Verify the restored dataset and compare its root with the signed one. -/
def verifyRestoredDataset (H : Hashers) (record : ProvenanceRecord) (dataset : Dataset) :
    Except RestoreError Unit :=
  match verifyDataset H dataset with
  | .ok true =>
    if constantTimeEq dataset.merkleAttr.root record.signedRoot then .ok ()
    else .error (.rootMismatch record.version)
  | .ok false => .error (.datasetVerificationFailed record.version none)
  | .error source => .error (.datasetVerificationFailed record.version (some source))

/-- Select a record, run the caller's revert on it, and return its version. -/
def restoreToVersion (journal : ProvenanceJournal) (target : RestoreTarget)
    (verify : ProvenanceRecord → Bool) (apply : ProvenanceRecord → Except RestoreError Unit) :
    Except RestoreError UInt64 := do
  let record ← selectRestoreRecord journal target verify
  apply record
  .ok record.version

/-! ### The signature gate -/

section

variable {journal : ProvenanceJournal} {target : RestoreTarget} {verify : ProvenanceRecord → Bool}

/-- A selected record is journaled, and its signature verifies. -/
theorem selectRestoreRecord_eq_ok {record : ProvenanceRecord}
    (h : selectRestoreRecord journal target verify = .ok record) :
    record ∈ journal.records ∧ verify record = true := by
  cases target with
  | version v =>
    simp only [selectRestoreRecord, bind_ok_iff, okOr_eq_ok, reject_eq_ok, exists_const,
      Bool.not_eq_false, Except.ok.injEq] at h
    obtain ⟨_, hfound, hverified, rfl⟩ := h
    exact ⟨(ProvenanceJournal.recordForVersion_eq_some.mp hfound).1, hverified⟩
  | lastKnownGood =>
    have hfound := okOr_eq_ok.mp h
    exact ⟨mem_reverse.mp (mem_of_find?_eq_some hfound), find?_some hfound⟩

/-- The last match is the newest one. -/
theorem find?_reverse_eq_some {records : List ProvenanceRecord} {record : ProvenanceRecord}
    (h : records.Pairwise fun r s => r.version < s.version) :
    records.reverse.find? verify = some record ↔ record ∈ records ∧
      verify record ∧ ∀ r ∈ records, verify r → r.version ≤ record.version := by
  induction records using reverseRecOn with
  | nil => simp
  | append_singleton records last ih =>
    obtain ⟨hsorted, -, hlast⟩ := pairwise_append.mp h
    rw [reverse_append, reverse_singleton, singleton_append, find?_cons]
    cases hverified : verify last with
    | true => grind [UInt64.le_refl, UInt64.le_of_lt, UInt64.not_le]
    | false => grind

/-- A restore returns the requested version, or the newest one that verifies, if its record verifies
and the caller's revert accepts it. -/
theorem restoreToVersion_eq_ok_iff {apply : ProvenanceRecord → Except RestoreError Unit}
    {v : UInt64} : restoreToVersion journal target verify apply = .ok v ↔
      ∃ record ∈ journal.records, record.version = v ∧ verify record ∧ apply record = .ok () ∧
        match target with
        | .version w => w = v
        | .lastKnownGood => ∀ r ∈ journal.records, verify r → r.version ≤ v := by
  simp only [restoreToVersion, bind_ok_iff, Except.ok.injEq]
  cases target with
  | version w =>
    simp only [selectRestoreRecord, bind_ok_iff, okOr_eq_ok, reject_eq_ok,
      ProvenanceJournal.recordForVersion_eq_some]
    grind
  | lastKnownGood =>
    simp only [selectRestoreRecord, okOr_eq_ok, find?_reverse_eq_some journal.sorted]
    grind

end

/-! ### The dataset gate -/

section

variable {H : Hashers} {record : ProvenanceRecord} {d : Dataset}

theorem verifyRestoredDataset_eq_ok : verifyRestoredDataset H record d = .ok () ↔
    verifyDataset H d = .ok true ∧ d.merkleAttr.root = record.signedRoot := by
  unfold verifyRestoredDataset
  split
  · next h => simp [h]
  · next h => simp [h]
  · next h => simp [h]

theorem LeafFormat.eq_of_preimage_eq {fmt fmt' : LeafFormat} {idx : ℕ} {data : Bytes}
    {v v' : UInt64} (h : fmt.preimage idx data v = fmt'.preimage idx data v') : fmt = fmt' := by
  cases fmt <;> cases fmt'
  · rfl
  · exact absurd h (contentPreimage_ne_boundPreimage _ _ _)
  · exact absurd h.symm (contentPreimage_ne_boundPreimage _ _ _)
  · rfl

/-- Equal rows of leaf preimages come from equal chunks exactly if the formats agree. -/
theorem chunks_eq_iff_of_leafPreimages_eq {fmt fmt' : LeafFormat} {chunks chunks' : List Bytes}
    {versions versions' : List UInt64} (hne : chunks' ≠ [])
    (h : leafPreimages fmt chunks versions = leafPreimages fmt' chunks' versions') :
    chunks = chunks' ↔ fmt = fmt' := by
  constructor
  · rintro rfl
    obtain ⟨data, rest, rfl⟩ := exists_cons_of_ne_nil hne
    have hfirst := congrArg (fun row => row[0]?) h
    simp only [getElem?_leafPreimages, getElem?_cons_zero, Option.map_some,
      Option.some.injEq] at hfirst
    exact LeafFormat.eq_of_preimage_eq hfirst
  · rintro rfl
    exact (chunks_eq_of_leafPreimages_eq h).1

/-- **The rollback gate.** Against a record whose signed root is the honest root over `chunks`,
an accepted snapshot holds these chunks exactly if it declares the leaf format they were
committed with. -/
theorem verifyRestoredDataset_iff {alg : HashAlg} {fmt : LeafFormat} {chunks : List Bytes}
    {versions : List UInt64} (hne : chunks ≠ [])
    (hroot : record.signedRoot = (commitTree H alg fmt chunks versions).root)
    (hcf : CollisionFreeAcross H
      ((d.verifyPreimages H).map (Prod.mk d.merkleAttr.algorithm) ++
        (commitPreimages H alg fmt chunks versions).map (Prod.mk alg)))
    (hok : verifyRestoredDataset H record d = .ok ()) :
    d.chunks = chunks ↔ d.merkleAttr.leafFormat = fmt := by
  obtain ⟨hverified, hsigned⟩ := verifyRestoredDataset_eq_ok.mp hok
  obtain ⟨-, t, ht, hle, -, -, hrebuilt⟩ := verifyDataset_eq_ok.mp hverified
  obtain ⟨a, ha⟩ := t.paddedCount_pow
  rw [Dataset.rebuilt_eq_rowTree, hsigned, hroot] at hrebuilt
  have hcf' : ∀ x ∈ d.verifyPreimages H, ∀ y ∈ commitPreimages H alg fmt chunks versions,
      d.merkleAttr.algorithm.hashRaw H x = alg.hashRaw H y → x = y := fun x hx y hy heq =>
    hcf (_, x) (mem_append_left _ (mem_map_of_mem hx)) (_, y)
      (mem_append_right _ (mem_map_of_mem hy)) heq
  have hrows := rowPreimages_eq_of_root_eq_across hcf' (occurs_liveRow ht fun x hx => hx)
    (occurs_commit fun x hx => hx) hrebuilt
  rw [ha, Dataset.rowPreimages_liveRow (ha ▸ hle)] at hrows
  have hleaves := eq_of_append_replicate_eq nullPreimage_notMem_leafPreimages
    nullPreimage_notMem_leafPreimages hrows
  exact chunks_eq_iff_of_leafPreimages_eq hne hleaves

/-- A bound dataset passed off as one with content leaves: the chunks are the bound preimages
without their separator. -/
def Dataset.reframed (H : Hashers) (alg : HashAlg) (chunks : List Bytes)
    (versions : List UInt64) : Dataset :=
  let tree := commitTree H alg .bound chunks versions
  { merkleAttr := .fromTreeWithCompanion H tree (computeSha256 H (flatNodes tree.nodes))
    treeNodes := flatNodes tree.nodes
    chunks := (leafPreimages .bound chunks versions).map List.tail
    chunkVersions := [] }

/-- The record of one bound chunk at version 5. -/
def oneChunkRecord : ProvenanceRecord where
  version := 5
  signedRoot := (commitTree sha256Only .sha256 .bound [[0x61]] [5]).root
  hybridSig := []
  timestamp := 0
  snapshotRef := "snap"

/-- Two bound chunks at versions 5 and 7. -/
def twoChunks : Dataset := .committed sha256Only .sha256 .bound [[0x61], [0x62]] [5, 7]

theorem verifyRestoredDataset_iff_twoChunks :
    twoChunks.chunks = [[0x61], [0x62]] ↔ twoChunks.merkleAttr.leafFormat = .bound :=
  @verifyRestoredDataset_iff sha256Only { oneChunkRecord with
      signedRoot := (commitTree sha256Only .sha256 .bound [[0x61], [0x62]] [5, 7]).root }
    twoChunks .sha256 .bound [[0x61], [0x62]] [5, 7]
    (by decide) rfl (by decide +kernel) (by decide +kernel)

/-- The gate accepts the reframed snapshot, whose chunk is not the certified one. -/
theorem reframed_accepted :
    CollisionFreeAcross sha256Only
      (((Dataset.reframed sha256Only .sha256 [[0x61]] [5]).verifyPreimages sha256Only).map
          (Prod.mk .sha256) ++
        (commitPreimages sha256Only .sha256 .bound [[0x61]] [5]).map (Prod.mk .sha256)) ∧
    oneChunkRecord.signedRoot = (commitTree sha256Only .sha256 .bound [[0x61]] [5]).root ∧
    verifyRestoredDataset sha256Only oneChunkRecord
      (.reframed sha256Only .sha256 [[0x61]] [5]) = .ok () ∧
    (Dataset.reframed sha256Only .sha256 [[0x61]] [5]).chunks ≠ [[0x61]] :=
  ⟨by decide +kernel, rfl, by decide +kernel, by decide +kernel⟩

end

end ClawHdf5.Merkle
