import ClawHdf5.Math.BinarySearch
import ClawHdf5.Math.Reader
import ClawHdf5.Merkle.Tree

/-!
# The provenance journal

An append-only list of records, one for each committed version, with its on-disk encoding. A
journal carries what its constructors establish: versions grow strictly, and every field fits
its length word. The encoding is read strictly, so the bytes that are accepted are exactly the
bytes that are written.
-/

namespace ClawHdf5.Merkle

open BinarySearch Bytes Fallible Reader List Except

variable {records : List ProvenanceRecord} {r : ProvenanceRecord} {data : Bytes}
  {j : ProvenanceJournal}

/-! ### Records -/

/-- A version certified by a signed root and tied to a snapshot. -/
structure ProvenanceRecord where
  version : UInt64
  signedRoot : Hash
  hybridSig : Bytes
  timestamp : UInt64
  snapshotRef : String
  deriving DecidableEq

namespace ProvenanceRecord

/-- The lengths of the variable fields fit a 32-bit word. -/
def Fits (r : ProvenanceRecord) : Prop :=
  r.hybridSig.length < 2 ^ 32 ∧ (utf8Bytes r.snapshotRef).length < 2 ^ 32
  deriving Decidable

def toBytes (r : ProvenanceRecord) : Bytes :=
  be64 r.version ++ r.signedRoot.val ++ be64 r.timestamp ++ varBytes r.hybridSig ++
    varBytes (utf8Bytes r.snapshotRef)

end ProvenanceRecord

/-- The size of a record whose variable fields are empty. -/
def minRecordSize : ℕ := 8 + hashSize + 8 + 4 + 4

theorem ProvenanceRecord.minRecordSize_le (r : ProvenanceRecord) :
    minRecordSize ≤ r.toBytes.length := by
  have hroot := r.signedRoot.2
  simp only [toBytes, varBytes, length_append, length_be64, length_be32, minRecordSize]
  omega

/-! ### Journals -/

/-- A journal: records in the order of strictly growing versions. -/
structure ProvenanceJournal where
  records : List ProvenanceRecord
  sorted : records.Pairwise fun r s => r.version < s.version
  fits : ∀ r ∈ records, r.Fits

namespace ProvenanceJournal

variable {records : List ProvenanceRecord} {r : ProvenanceRecord} {data : Bytes}
  {j : ProvenanceJournal}

def new : ProvenanceJournal := ⟨[], .nil, fun _ h => absurd h List.not_mem_nil⟩

/-- The records before the last one are older than it. -/
theorem sorted_concat (h : records.Pairwise fun r s => r.version < s.version)
    (hlast : ∀ last ∈ records.getLast?, last.version < r.version) :
    (records ++ [r]).Pairwise fun r s => r.version < s.version := by
  refine pairwise_append.mpr ⟨h, pairwise_singleton _ _, fun s hs r' hr' => ?_⟩
  obtain rfl := mem_singleton.mp hr'
  rcases eq_nil_or_concat' records with rfl | ⟨front, last, rfl⟩
  · exact absurd hs not_mem_nil
  · have hlt := hlast last (by simp)
    rcases mem_append.mp hs with hs | hs
    · exact UInt64.lt_trans ((pairwise_append.mp h).2.2 s hs last (by simp)) hlt
    · rwa [mem_singleton.mp hs]

open ProvenanceRecord

/-- Append a record that is newer than all others. -/
def append (j : ProvenanceJournal) (record : ProvenanceRecord) :
    Except MerkleError ProvenanceJournal :=
  if hlast : ∀ last ∈ j.records.getLast?, last.version < record.version then
    if hfits : record.Fits then
      .ok ⟨j.records ++ [record], sorted_concat j.sorted hlast, fun r hr =>
        (List.mem_append.mp hr).elim (j.fits r) fun hr => List.mem_singleton.mp hr ▸ hfits⟩
    else .error .journalCorrupt
  else
    .error (.journalNonMonotonic record.version
      ((j.records.getLast?.map ProvenanceRecord.version).getD 0))

def appendAll (j : ProvenanceJournal) : List ProvenanceRecord →
    Except MerkleError ProvenanceJournal
  | [] => .ok j
  | r :: rs => do
    let j ← j.append r
    j.appendAll rs

def recordForVersion (j : ProvenanceJournal) (version : UInt64) : Option ProvenanceRecord :=
  match binarySearchBy (fun r => compare r.version version) j.records with
  | .ok idx => j.records[idx]?
  | .error _ => none

/-! ### Encoding -/

def magic : Bytes := [0x4d, 0x4a, 0x52, 0x4e]

def formatVersion : UInt8 := 1

def headerSize : ℕ := 12

/-- The encoding of a list of records. The count is truncated to its word. -/
def packRecords (records : List ProvenanceRecord) : Bytes :=
  magic ++ [formatVersion] ++ [0, 0, 0] ++ be32 (UInt32.ofNat records.length) ++
    records.flatMap ProvenanceRecord.toBytes

def pack (j : ProvenanceJournal) : Bytes := packRecords j.records

/-- Read records, each newer than the one before it. -/
def readRecords : ℕ → Option UInt64 → Reader MerkleError (List ProvenanceRecord)
  | 0, _ => pure []
  | count + 1, prevVersion => do
    let version ← readBe64 .journalCorrupt
    let signedRoot ← readFixed .journalCorrupt hashSize
    let timestamp ← readBe64 .journalCorrupt
    let hybridSig ← readVarBytes .journalCorrupt
    let refBytes ← readVarBytes .journalCorrupt
    let snapshotRef ← orFail (okOr .journalCorrupt (fromUtf8 refBytes))
    orFail (reject (∃ prev ∈ prevVersion, version ≤ prev) .journalCorrupt)
    let records ← readRecords count (some version)
    pure (⟨version, signedRoot, hybridSig, timestamp, snapshotRef⟩ :: records)

/-- The records that are read are those that were written, and each is newer than the one
before it. -/
theorem readRecords_eq_ok {count : ℕ} {prevVersion : Option UInt64} {rest : Bytes} :
    readRecords count prevVersion data = .ok (records, rest) ↔
      records.length = count ∧ (∀ r ∈ records, r.Fits) ∧
        (records.Pairwise fun r s => r.version < s.version) ∧
        (∀ prev ∈ prevVersion, ∀ r ∈ records, prev < r.version) ∧
        data = records.flatMap toBytes ++ rest := by
  induction count generalizing prevVersion data records rest with
  | zero =>
    simp only [readRecords, length_eq_zero_iff]
    constructor
    · rintro ⟨rfl, rfl⟩
      simp
    · rintro ⟨rfl, -, -, -, rfl⟩
      simp
  | succ count ih =>
    simp only [readRecords, bind_eq_ok, readBe64_eq_ok, readFixed_eq_ok, readVarBytes_eq_ok,
      orFail_eq_ok, okOr_eq_ok, fromUtf8_eq_some, reject_eq_ok, pure_eq_ok, ih, not_exists,
      not_and, UInt64.not_le]
    constructor
    · rintro ⟨version, _, rfl, root, _, rfl, timestamp, _, rfl, sig, _, ⟨hsig, rfl⟩, _, _,
        ⟨href, rfl⟩, ref, _, ⟨rfl, rfl⟩, _, _, ⟨hprev, rfl⟩, tail, _,
        ⟨hlen, hfits, hsorted, hnewer, rfl⟩, rfl, rfl⟩
      refine ⟨by rw [length_cons, hlen], forall_mem_cons.mpr ⟨⟨hsig, href⟩, hfits⟩,
        pairwise_cons.mpr ⟨hnewer version rfl, hsorted⟩, fun prev hmem => ?_, ?_⟩
      · refine forall_mem_cons.mpr ⟨hprev prev hmem, fun r hr => ?_⟩
        exact UInt64.lt_trans (hprev prev hmem) (hnewer version rfl r hr)
      · simp [toBytes]
    · rintro ⟨hlen, hfits, hsorted, hnewer, rfl⟩
      obtain ⟨⟨version, root, sig, timestamp, ref⟩, tail, rfl⟩ :=
        exists_cons_of_length_eq_add_one hlen
      obtain ⟨⟨hsig, href⟩, hfits⟩ := forall_mem_cons.mp hfits
      obtain ⟨hnext, hsorted⟩ := pairwise_cons.mp hsorted
      refine ⟨version, _, ?_, root, _, rfl, timestamp, _, rfl, sig, _, ⟨hsig, rfl⟩, _, _,
        ⟨href, rfl⟩, ref, _, ⟨rfl, rfl⟩, (), _,
        ⟨fun prev hmem => hnewer prev hmem _ mem_cons_self, rfl⟩, tail, _,
        ⟨by simpa using hlen, hfits, hsorted, ?_, rfl⟩, rfl, rfl⟩
      · simp [toBytes]
      · rintro prev hprev r hr
        obtain rfl := Option.mem_some_iff.mp hprev
        exact hnext r hr

theorem minRecordSize_mul_le (records : List ProvenanceRecord) :
    records.length * minRecordSize ≤ (records.flatMap toBytes).length := by
  induction records with
  | nil => simp
  | cons r records ih =>
    have hr := r.minRecordSize_le
    rw [length_cons, Nat.succ_mul, flatMap_cons, length_append]
    omega

/-- A header of the right length is its four fields. -/
theorem header_eq (h : headerSize ≤ data.length) :
    data = data.take 4 ++ [data.getD 4 0] ++ (data.drop 5).take 3 ++ (data.drop 8).take 4 ++
      data.drop headerSize := by
  have hcons : data.drop 4 = data.getD 4 0 :: data.drop 5 := by
    have hlt : 4 < data.length := lt_of_lt_of_le (by decide) h
    rw [getD_eq_getElem _ _ hlt, drop_eq_getElem_cons hlt]
  have hdrop (i w : ℕ) : (data.drop i).take w ++ data.drop (i + w) = data.drop i := by
    rw [← drop_drop, take_append_drop]
  calc data = data.take 4 ++ data.drop 4 := (take_append_drop 4 data).symm
    _ = data.take 4 ++ ([data.getD 4 0] ++ ((data.drop 5).take 3 ++ ((data.drop 8).take 4 ++
        data.drop 12))) := by rw [hdrop 8 4, hdrop 5 3, hcons]; rfl
    _ = _ := by simp [headerSize]

def unpackRecords (data : Bytes) : Except MerkleError (List ProvenanceRecord) := do
  reject (data.length < headerSize) .journalCorrupt
  reject (data.take 4 ≠ magic) .journalCorrupt
  reject (data.getD 4 0 ≠ formatVersion) (.journalUnsupportedVersion (data.getD 4 0))
  reject ((data.drop 5).take 3 ≠ [0, 0, 0]) .journalCorrupt
  let count := (ofBe32 ((data.drop 8).take 4)).toNat
  let bodyLen := data.length - headerSize
  reject (count > bodyLen / minRecordSize) .journalCorrupt
  let (records, rest) ← readRecords count none (data.drop headerSize)
  -- the offset behind the last record is the end of the data
  reject (rest.length ≠ 0) .journalCorrupt
  .ok records

/-- The header fields and the body of an encoding. -/
theorem packRecords_fields (records : List ProvenanceRecord) :
    headerSize + (records.flatMap toBytes).length = (packRecords records).length ∧
      (packRecords records).take 4 = magic ∧ (packRecords records).getD 4 0 = formatVersion ∧
      ((packRecords records).drop 5).take 3 = [0, 0, 0] ∧
      ((packRecords records).drop 8).take 4 = be32 (UInt32.ofNat records.length) ∧
      (packRecords records).drop headerSize = records.flatMap toBytes := by
  have hpack : packRecords records = magic ++ formatVersion :: 0 :: 0 :: 0 ::
      (be32 (UInt32.ofNat records.length) ++ records.flatMap toBytes) := by
    simp [packRecords]
  rw [hpack]
  simp [headerSize, magic]
  omega

/-- The accepted encodings are exactly those of sorted lists of records that fit. -/
theorem unpackRecords_eq_ok : unpackRecords data = .ok records ↔
      records.length < 2 ^ 32 ∧ (∀ r ∈ records, r.Fits) ∧
        (records.Pairwise fun r s => r.version < s.version) ∧ data = packRecords records := by
  simp only [unpackRecords, bind_ok_iff, reject_eq_ok, exists_const, not_not, not_lt,
    ok.injEq, Prod.exists, readRecords_eq_ok, length_eq_zero_iff]
  constructor
  · rintro ⟨hlen, hmagic, hversion, hreserved, -, _, _, ⟨hcount, hfits, hsorted, -, hbody⟩,
      rfl, rfl⟩
    have hwidth : ((data.drop 8).take 4).length = 4 := by
      rw [length_take, length_drop]
      simp only [headerSize] at hlen
      omega
    refine ⟨hcount ▸ (ofBe32 _).toNat_lt, hfits, hsorted, ?_⟩
    rw [header_eq hlen, hmagic, hversion, hreserved, hbody, append_nil, packRecords,
      hcount, UInt32.ofNat_toNat, be32_ofBe32 hwidth]
  · rintro ⟨hlt, hfits, hsorted, rfl⟩
    obtain ⟨hlen, hmagic, hversion, hreserved, hcount, hbody⟩ := packRecords_fields records
    have hsize := minRecordSize_mul_le records
    rw [hcount, hbody, ofBe32_be32, UInt32.toNat_ofNat_of_lt' hlt]
    refine ⟨by omega, rfl, rfl, rfl, ?_, records, [],
      ⟨rfl, hfits, hsorted, by simp, by simp⟩, rfl, rfl⟩
    rw [Nat.le_div_iff_mul_le (by decide)]
    omega

/-- Read a journal back. -/
def unpack (data : Bytes) : Except MerkleError ProvenanceJournal :=
  match h : unpackRecords data with
  | .error e => .error e
  | .ok records =>
    have hrecords := unpackRecords_eq_ok.mp h
    .ok ⟨records, hrecords.2.2.1, hrecords.2.1⟩

/-- `unpack` accepts exactly the encodings of journals whose length fits its word. -/
theorem unpack_eq_ok : unpack data = .ok j ↔ j.records.length < 2 ^ 32 ∧ data = j.pack := by
  have hrecords : unpack data = .ok j ↔ unpackRecords data = .ok j.records := by
    unfold unpack
    split
    · next h => simp [h]
    · next records h =>
      constructor
      · intro hj
        rw [← ok.inj hj]
        exact h
      · intro hj
        obtain rfl := ok.inj (h.symm.trans hj)
        rfl
  rw [hrecords, unpackRecords_eq_ok]
  exact ⟨fun h => ⟨h.1, h.2.2.2⟩, fun h => ⟨h.1, j.fits, j.sorted, h.2⟩⟩

/-! ### Histories and lookups -/

theorem append_records {j' : ProvenanceJournal} (h : j.append r = .ok j') :
    j'.records = j.records ++ [r] := by
  unfold append at h
  split_ifs at h
  rw [← ok.inj h]

theorem appendAll_records {j' : ProvenanceJournal} {rs : List ProvenanceRecord}
    (h : j.appendAll rs = .ok j') : j'.records = j.records ++ rs := by
  induction rs generalizing j with
  | nil => rw [← ok.inj h, append_nil]
  | cons r rs ih =>
    obtain ⟨next, hnext, hrest⟩ := bind_ok_iff.mp h
    rw [ih hrest, append_records hnext, append_assoc, singleton_append]

theorem compare_version (a b : UInt64) : (compare a b = .lt ↔ a < b) ∧ (compare a b = .eq ↔ a = b) ∧
      (compare a b = .gt ↔ b < a) := by
  have hcompare : compare a b = if a < b then .lt else if a = b then .eq else .gt := rfl
  rcases UInt64.lt_or_le a b with hlt | hle
  · rw [hcompare]
    simp [hlt, UInt64.ne_of_lt hlt, UInt64.le_of_lt hlt]
  · rw [hcompare, if_neg (UInt64.not_lt.mpr hle)]
    rcases Decidable.em (a = b) with rfl | hne
    · simp
    · simp [hne, hle, UInt64.lt_of_le_of_ne hle (Ne.symm hne)]

theorem ascending (j : ProvenanceJournal) (version : UInt64) :
    Ascending (fun r => compare r.version version) j.records := by
  refine j.sorted.imp fun {r s} hlt => ⟨fun hgt => ?_, fun hlt' => ?_⟩
  · rw [(compare_version _ _).2.2] at hgt ⊢
    exact UInt64.lt_trans hgt hlt
  · rw [(compare_version _ _).1] at hlt' ⊢
    exact UInt64.lt_trans hlt hlt'

theorem eq_of_version_eq (j : ProvenanceJournal) {s : ProvenanceRecord} (hr : r ∈ j.records)
    (hs : s ∈ j.records) (h : r.version = s.version) : r = s := by
  have hnodup : (j.records.map version).Nodup := pairwise_map.mpr (j.sorted.imp UInt64.ne_of_lt)
  exact inj_on_of_nodup_map hnodup hr hs h

/-- The lookup finds a record exactly if the journal holds it. -/
theorem recordForVersion_eq_some {version : UInt64} :
    j.recordForVersion version = some r ↔ r ∈ j.records ∧ r.version = version := by
  constructor
  · intro h
    unfold recordForVersion at h
    split at h
    · next idx hidx =>
      obtain ⟨x, hx, heq⟩ := binarySearchBy_eq_ok hidx
      rw [h, Option.some.injEq] at hx
      subst hx
      exact ⟨mem_of_getElem? h, (compare_version _ _).2.1.mp heq⟩
    · cases h
  · rintro ⟨hmem, rfl⟩
    obtain ⟨k, hk⟩ := mem_iff_getElem?.mp hmem
    obtain ⟨i, hi⟩ := binarySearchBy_finds (j.ascending r.version)
      ((compareAt_of_getElem? hk).trans ((compare_version _ _).2.1.mpr rfl))
    obtain ⟨x, hx, heq⟩ := binarySearchBy_eq_ok hi
    rw [recordForVersion, hi]
    dsimp only
    rw [hx, j.eq_of_version_eq (mem_of_getElem? hx) hmem ((compare_version _ _).2.1.mp heq)]

/-- **Journal encoding.** A journal built by appends is read back from its encoding; whatever
is accepted is the encoding of the journal it is read as, whose versions grow strictly; and
the lookup by version finds exactly the records of a journal. -/
theorem journal_encoding :
    (∀ rs j, new.appendAll rs = .ok j →
      j.records = rs ∧ (rs.length < 2 ^ 32 → unpack j.pack = .ok j)) ∧
    (∀ data j, unpack data = .ok j →
      j.pack = data ∧ j.records.Pairwise fun r s => r.version < s.version) ∧
    ∀ (j : ProvenanceJournal) version,
      (∀ r, j.recordForVersion version = some r → r ∈ j.records ∧ r.version = version) ∧
      ((∃ r, j.recordForVersion version = some r) ↔ ∃ r ∈ j.records, r.version = version) := by
  refine ⟨fun rs j h => ?_, fun data j h => ?_, fun j version => ?_⟩
  · have hrecords : j.records = rs := appendAll_records h
    exact ⟨hrecords, fun hlt => unpack_eq_ok.mpr ⟨hrecords ▸ hlt, rfl⟩⟩
  · exact ⟨(unpack_eq_ok.mp h).2.symm, j.sorted⟩
  · exact ⟨fun r h => recordForVersion_eq_some.mp h,
      exists_congr fun r => recordForVersion_eq_some⟩

end ProvenanceJournal

end ClawHdf5.Merkle
