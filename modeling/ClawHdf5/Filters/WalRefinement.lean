import ClawHdf5.Filters.WalFile
import ClawHdf5.Math.Fallible

/-!
# The log refines a list of journaled versions

A log whose slots are all free or valid stands for the list of the versions that are journaled
and not committed. Each operation on the log is an operation on that list: journaling appends,
committing a chunk removes its versions, compacting and reopening change nothing. This holds for
every header that opening accepts and also when the file ends in a record that was cut off.
-/

namespace ClawHdf5.Filters

open Bytes Stateful Overwrite LawfulStorage List

def logBytes (slots : List (Option WalRecord)) : Bytes := walHeader ++ slots.flatMap encodeSlot

theorem length_walHeader : walHeader.length = walHeaderSize := rfl

/-- The header of a new log, as an array. -/
def logHeader : Fixed walHeaderSize := ⟨walHeader, length_walHeader⟩

/-- The bytes of a slot, as an array. -/
def encodedSlot (slot : Option WalRecord) : Fixed walRecordSize :=
  ⟨encodeSlot slot, length_encodeSlot slot⟩

@[simp] theorem slotContent_encodedSlot (slot : Option WalRecord) :
    slotContent (encodedSlot slot) = some slot :=
  slotContent_eq_some.mpr rfl

theorem logBytes_eq (slots : List (Option WalRecord)) :
    logBytes slots = fileBytes logHeader (slots.map encodedSlot) [] := by
  rw [logBytes, fileBytes, append_nil, flatMap_map]
  rfl

theorem overwrite_map_encodedSlot (slots new : List (Option WalRecord)) (i : ℕ) :
    overwrite (slots.map encodedSlot) i (new.map encodedSlot) =
      (overwrite slots i new).map encodedSlot := by
  simp [overwrite]

namespace VersionWal

variable {W : Type} [Storage W] [LawfulStorage W]
variable {wal wal' : VersionWal W} {pending : List Journaled} {w : W}

/-! ### Scans -/

section

variable {header : Fixed walHeaderSize} {slots : List (Option WalRecord)} {rest : Bytes}

def pendingRecord : Option WalRecord → Option WalRecord
  | none => none
  | some record => if record.status = .pending then some record else none

def pendingRecords (slots : List (Option WalRecord)) : List WalRecord :=
  slots.filterMap pendingRecord

theorem pendingRecords_cons (slot : Option WalRecord) (slots : List (Option WalRecord)) :
    pendingRecords (slot :: slots) = (pendingRecord slot).toList ++ pendingRecords slots := by
  cases h : pendingRecord slot <;> simp [pendingRecords, h]

@[simp] theorem pendingRecords_append (slots slots' : List (Option WalRecord)) :
    pendingRecords (slots ++ slots') = pendingRecords slots ++ pendingRecords slots' :=
  filterMap_append

/-- A slot after the pending records of a chunk were committed. -/
def sweepSlot (chunkIdx : UInt64) : Option WalRecord → Option WalRecord
  | none => none
  | some record =>
    if record.chunkIdx = chunkIdx ∧ record.status = .pending then
      some { record with status := .committed }
    else some record

def isPendingOf (chunkIdx : UInt64) : Option WalRecord → Bool
  | none => false
  | some record => record.chunkIdx = chunkIdx ∧ record.status = .pending

theorem ensures_collectPending {n i : ℕ} {acc : List WalRecord}
    (hbytes : bytes wal.writer = fileBytes header (slots.map encodedSlot) rest)
    (hn : i + n ≤ slots.length) :
    Ensures (fun records wal' => records = acc ++ pendingRecords ((slots.drop i).take n) ∧
        SameLog wal wal') (fun _ _ => False) (collectPending n i acc wal) := by
  induction n generalizing i acc wal with
  | zero => exact ⟨by simp [pendingRecords], rfl, rfl, rfl⟩
  | succ n ih =>
    have hlt : i < slots.length := by omega
    have hslot : (slots.map encodedSlot)[i]? = some (encodedSlot slots[i]) := by
      rw [getElem?_map, getElem?_eq_getElem hlt, Option.map_some]
    have hcons : (slots.drop i).take (n + 1) = slots[i] :: (slots.drop (i + 1)).take n := by
      rw [drop_eq_getElem_cons hlt, take_succ_cons]
    apply (ensures_peekRaw hbytes hslot).seq ?_
    · rintro _ wal₁ ⟨⟨content, rfl, hcontent⟩, hsame⟩
      rw [slotContent_encodedSlot] at hcontent
      cases hcontent
      have hrest : ∀ acc', Ensures (fun records wal' =>
          records = acc' ++ pendingRecords ((slots.drop (i + 1)).take n) ∧ SameLog wal wal')
          (fun _ _ => False) (collectPending n (i + 1) acc' wal₁) := by
        intro acc'
        refine (ih (hsame.bytes_eq.trans hbytes) (by omega)).mono ?_ fun _ _ h => h
        rintro records wal₂ ⟨hrecords, hsame₂⟩
        exact ⟨hrecords, hsame.trans hsame₂⟩
      rw [hcons, pendingRecords_cons, ← append_assoc]
      cases slots[i] with
      | none => simpa [pendingRecord] using hrest acc
      | some record =>
        by_cases hstatus : record.status = .pending
        · simpa [pendingRecord, if_pos hstatus] using
            hrest (acc ++ [record])
        · simpa [pendingRecord, if_neg hstatus] using hrest acc
    · rintro _ wal₁ ⟨-, hcorrupt, -⟩
      rw [slotContent_encodedSlot] at hcorrupt
      cases hcorrupt

theorem sweepRaw_encodedSlot (chunkIdx : UInt64) (slot : Option WalRecord) :
    sweepRaw chunkIdx (encodedSlot slot) = encodedSlot (sweepSlot chunkIdx slot) := by
  rw [sweepRaw, slotContent_encodedSlot]
  cases slot with
  | none => rfl
  | some record =>
    by_cases hpending : record.chunkIdx = chunkIdx ∧ record.status = .pending
    · simp only [sweepSlot, if_pos hpending]
      rfl
    · simp only [sweepSlot, if_neg hpending]

theorem isPendingRaw_encodedSlot (chunkIdx : UInt64) (slot : Option WalRecord) :
    isPendingRaw chunkIdx (encodedSlot slot) = isPendingOf chunkIdx slot := by
  rw [isPendingRaw, slotContent_encodedSlot]
  cases slot <;> rfl

/-- The slots after the first `n` were swept. -/
theorem ensures_sweep {chunkIdx : UInt64} {n : ℕ} {found : Bool}
    (hbytes : bytes wal.writer = fileBytes header (slots.map encodedSlot) rest)
    (hn : n ≤ slots.length) :
    Ensures (fun found' wal' => found' = (found || (slots.take n).any (isPendingOf chunkIdx)) ∧
        bytes wal'.writer = fileBytes header
          (((slots.take n).map (sweepSlot chunkIdx) ++ slots.drop n).map encodedSlot) rest ∧
        wal'.recordCount = wal.recordCount ∧ wal'.maxRecords = wal.maxRecords)
      (fun _ _ => mayFail W) (sweep chunkIdx n found wal) := by
  refine (ensures_sweepRaw hbytes (by rwa [length_map])).mono ?_ ?_
  · rintro found' wal' ⟨-, hfound, hbytes', hcount, hmax⟩
    have hany : ((slots.map encodedSlot).take n).any (isPendingRaw chunkIdx) =
        (slots.take n).any (isPendingOf chunkIdx) := by
      rw [← map_take, any_map]
      exact congrArg (any _) (funext (isPendingRaw_encodedSlot chunkIdx))
    have hmap : ((slots.map encodedSlot).take n).map (sweepRaw chunkIdx) =
        ((slots.take n).map (sweepSlot chunkIdx)).map encodedSlot := by
      rw [← map_take, map_map, map_map]
      exact congrArg (map · _) (funext (sweepRaw_encodedSlot chunkIdx))
    refine ⟨hfound.trans (by rw [hany]), ?_, hcount, hmax⟩
    rw [hbytes', hmap, ← map_drop, ← map_append]
  · rintro _ wal' (hfail | ⟨before, bad, behind, hsplit, hbad, -, -⟩)
    · exact hfail
    · -- No slot of this file is corrupt.
      have hmem : bad ∈ slots.map encodedSlot :=
        mem_of_mem_take (hsplit ▸ mem_append_right _ mem_cons_self)
      obtain ⟨slot, -, rfl⟩ := mem_map.mp hmem
      rw [slotContent_encodedSlot] at hbad
      cases hbad

theorem pendingRecords_eq_nil (h : ∀ slot ∈ slots, slot = none) : pendingRecords slots = [] := by
  rw [pendingRecords, filterMap_eq_nil_iff]
  intro slot hslot
  rw [h slot hslot]
  rfl

theorem pendingRecords_map_some {records : List WalRecord}
    (h : ∀ record ∈ records, record.status = .pending) :
    pendingRecords (records.map some) = records := by
  induction records with
  | nil => rfl
  | cons record records ih =>
    obtain ⟨hfirst, hrest⟩ := forall_mem_cons.mp h
    rw [map_cons, pendingRecords_cons, ih hrest, pendingRecord, if_pos hfirst]
    rfl

theorem status_of_mem_pendingRecords {record : WalRecord} (h : record ∈ pendingRecords slots) :
    record.status = .pending := by
  obtain ⟨slot, -, hslot⟩ := mem_filterMap.mp h
  cases slot with
  | none => cases hslot
  | some r =>
    rw [pendingRecord] at hslot
    split_ifs at hslot with hstatus
    cases hslot
    exact hstatus

theorem length_pendingRecords_le (slots : List (Option WalRecord)) :
    (pendingRecords slots).length ≤ slots.length :=
  length_filterMap_le _ _

/-- Sweeping a chunk removes its records from the pending ones. -/
theorem pendingRecords_map_sweepSlot (chunkIdx : UInt64) (slots : List (Option WalRecord)) :
    pendingRecords (slots.map (sweepSlot chunkIdx)) =
      (pendingRecords slots).filter (·.chunkIdx ≠ chunkIdx) := by
  induction slots with
  | nil => rfl
  | cons slot slots ih =>
    rw [map_cons, pendingRecords_cons, pendingRecords_cons, ih]
    cases slot with
    | none => rfl
    | some record =>
      by_cases hchunk : record.chunkIdx = chunkIdx <;>
        by_cases hstatus : record.status = .pending <;>
          simp [sweepSlot, pendingRecord, hchunk, hstatus]

theorem any_isPendingOf {chunkIdx : UInt64} : slots.any (isPendingOf chunkIdx) = true ↔
      ∃ record ∈ pendingRecords slots, record.chunkIdx = chunkIdx := by
  induction slots with
  | nil => simp [pendingRecords]
  | cons slot slots ih =>
    rw [any_cons, Bool.or_eq_true, ih, pendingRecords_cons]
    cases slot with
    | none => simp [isPendingOf, pendingRecord]
    | some record =>
      by_cases hstatus : record.status = .pending <;>
        simp [isPendingOf, pendingRecord, hstatus]

end

/-! ### The abstraction -/

theorem magic_within : 0 + 4 ≤ walHeaderSize := by decide

theorem version_within : 4 + 1 ≤ walHeaderSize := by decide

/-- A header that opening accepts: the magic bytes and the version are those of the format. -/
def Accepted (header : Fixed walHeaderSize) : Prop :=
  (header.slice 0 4 magic_within).1 = walMagic ∧
    (header.slice 4 1 version_within).1.headD 0 = walVersion

/-- The log's file consists of an accepted header, the given slots and the beginning of a record
that was cut off, and the slots behind the counted ones are free. -/
structure Carries (wal : VersionWal W) (header : Fixed walHeaderSize)
    (slots : List (Option WalRecord)) (torn : Bytes) : Prop where
  bytes_eq : bytes wal.writer = fileBytes header (slots.map encodedSlot) torn
  accepted : Accepted header
  torn_lt : torn.length < walRecordSize
  count_le : wal.recordCount ≤ slots.length
  free : ∀ slot ∈ slots.drop wal.recordCount, slot = none

/-- The log stands for the given list of journaled versions, behind a given header and with at
most `m` bytes of a record that was cut off. -/
def HoldsWith (header : Fixed walHeaderSize) (m : ℕ) (wal : VersionWal W)
    (pending : List Journaled) : Prop :=
  ∃ slots torn, torn.length ≤ m ∧ Carries wal header slots torn ∧
    (pendingRecords slots).map journaled = pending

/-- The log's file consists of the given slots, and those behind the counted ones are free. -/
structure Represents (wal : VersionWal W) (slots : List (Option WalRecord)) : Prop where
  bytes_eq : bytes wal.writer = logBytes slots
  count_le : wal.recordCount ≤ slots.length
  free : ∀ slot ∈ slots.drop wal.recordCount, slot = none

/-- The log stands for the given list of journaled versions. -/
def Holds (wal : VersionWal W) (pending : List Journaled) : Prop :=
  ∃ slots, Represents wal slots ∧ (pendingRecords slots).map journaled = pending

theorem holds_iff : Holds wal pending ↔ HoldsWith logHeader 0 wal pending := by
  constructor
  · rintro ⟨slots, ⟨hbytes, hcount, hfree⟩, hpending⟩
    rw [logBytes_eq] at hbytes
    exact ⟨slots, [], le_rfl, ⟨hbytes, ⟨rfl, rfl⟩, by decide, hcount, hfree⟩, hpending⟩
  · rintro ⟨slots, torn, htorn, ⟨hbytes, -, -, hcount, hfree⟩, hpending⟩
    rw [length_eq_zero_iff.mp (Nat.le_zero.mp htorn), ← logBytes_eq] at hbytes
    exact ⟨slots, ⟨hbytes, hcount, hfree⟩, hpending⟩

section

variable {header : Fixed walHeaderSize} {slots : List (Option WalRecord)} {torn : Bytes} {m : ℕ}

/-- The slots that compaction writes over the first `n`: the pending records and free slots. -/
def compactPlan (n : ℕ) (slots : List (Option WalRecord)) : List (Option WalRecord) :=
  (pendingRecords slots).map some ++ replicate (n - (pendingRecords slots).length) none

theorem pendingRecords_compactPlan (n : ℕ) (slots : List (Option WalRecord)) :
    pendingRecords (compactPlan n slots) = pendingRecords slots := by
  rw [compactPlan, pendingRecords_append, pendingRecords_eq_nil fun _ => eq_of_mem_replicate,
    append_nil, pendingRecords_map_some fun _ => status_of_mem_pendingRecords]

theorem blocks_compactPlan (n : ℕ) (slots : List (Option WalRecord)) :
    (pendingRecords slots).map (fun record => record.toBytes.1) ++
        replicate (n - (pendingRecords slots).length) emptyRecord =
      ((compactPlan n slots).map encodedSlot).map Subtype.val := by
  rw [compactPlan, map_map, map_append, map_map, map_replicate]
  rfl

section

variable (h : Carries wal header slots torn)
include h

theorem Carries.pendingRecords_take :
    pendingRecords (slots.take wal.recordCount) = pendingRecords slots := by
  nth_rewrite 2 [← take_append_drop wal.recordCount slots]
  rw [pendingRecords_append, pendingRecords_eq_nil h.free, append_nil]

theorem Carries.congr (hsame : SameLog wal wal') :
    Carries wal' header slots torn :=
  ⟨hsame.bytes_eq.trans h.bytes_eq, h.accepted, h.torn_lt, hsame.count_eq ▸ h.count_le,
    hsame.count_eq ▸ h.free⟩

/-- The pending records of a log are collected in full. -/
theorem Carries.ensures_collectPending :
    Ensures (fun records wal' => records = pendingRecords slots ∧ SameLog wal wal')
      (fun _ _ => False) (collectPending wal.recordCount 0 [] wal) := by
  refine (VersionWal.ensures_collectPending h.bytes_eq (by simpa using h.count_le)).mono ?_
    fun _ _ h => h
  rintro records wal' ⟨hrecords, hsame⟩
  refine ⟨?_, hsame⟩
  rw [hrecords, nil_append, drop_zero, h.pendingRecords_take]

theorem Carries.length_pendingRecords_le :
    (pendingRecords slots).length ≤ wal.recordCount := by
  rw [← h.pendingRecords_take]
  exact (VersionWal.length_pendingRecords_le _).trans (length_take_le _ _)

theorem Carries.length_compactPlan :
    (compactPlan wal.recordCount slots).length = wal.recordCount := by
  rw [compactPlan, length_append, length_map, length_replicate,
    Nat.add_sub_cancel' h.length_pendingRecords_le]

/-- The file with the first `k` slots of the plan written. -/
theorem Carries.overwrite_plan {k : ℕ}
    (hk : k ≤ wal.recordCount) :
    fileBytes header (overwrite (slots.map encodedSlot) 0
        (((compactPlan wal.recordCount slots).take k).map encodedSlot))
        (torn.drop ((0 + k - (slots.map encodedSlot).length) * walRecordSize)) =
      fileBytes header (((compactPlan wal.recordCount slots).take k ++ slots.drop k).map
        encodedSlot) torn := by
  have hlen : ((compactPlan wal.recordCount slots).take k).length = k :=
    length_take_of_le (hk.trans h.length_compactPlan.ge)
  have hin : 0 + k ≤ (slots.map encodedSlot).length := by
    rw [zero_add, length_map]
    exact hk.trans h.count_le
  rw [overwrite_map_encodedSlot, Nat.sub_eq_zero_of_le hin, zero_mul, drop_zero,
    overwrite, take_zero, nil_append, hlen, zero_add]

/-- Compaction writes its plan slot by slot. On a storage that writes all or nothing, a failure
leaves the slots of the plan that were written before it, in front of the old slots. -/
theorem Carries.ensures_compact : Ensures
      (fun _ wal' => wal'.recordCount = (pendingRecords slots).length ∧
        bytes wal'.writer = fileBytes header ((compactPlan wal.recordCount slots ++
          slots.drop wal.recordCount).map encodedSlot) torn)
      (fun _ wal' => mayFail W ∧ (AtomicStorage W → ∃ k ≤ wal.recordCount,
        bytes wal'.writer = fileBytes header (((compactPlan wal.recordCount slots).take k ++
          slots.drop k).map encodedSlot) torn))
      (compact wal) := by
  have hplan : ((compactPlan wal.recordCount slots).map encodedSlot).length =
      wal.recordCount := by rw [length_map, h.length_compactPlan]
  -- The whole plan, in the form in which the writes leave it.
  have hall := h.overwrite_plan (le_refl wal.recordCount)
  rw [take_of_length_le h.length_compactPlan.le] at hall
  rw [compact]
  apply h.ensures_collectPending.seq fun _ _ h => h.elim
  rintro _ wal₁ ⟨rfl, hsame₁⟩
  apply (ensures_seek wal₁ walHeaderSize).seq fun _ _ h => h.elim
  rintro _ wal₂ ⟨hsame₂, hpos₂⟩
  have hbytes₂ := (hsame₁.trans hsame₂).bytes_eq.trans h.bytes_eq
  rw [writeEach_bind_writeEach, blocks_compactPlan]
  apply (ensures_writeEachRaw ((compactPlan wal.recordCount slots).map encodedSlot) hbytes₂
    (i := 0) hpos₂ zero_le).seq ?_
  · rintro _ wal₃ ⟨hbytes₃, -, -, -⟩
    rw [hplan, hall] at hbytes₃
    apply (ensures_flushLog _).seq ?_
    · intro _ wal₄ hsame₄
      apply (ensures_seek wal₄ _).seq fun _ _ h => h.elim
      rintro _ wal₅ ⟨hsame₅, -⟩
      have hsame := hsame₄.trans hsame₅
      exact ⟨hsame.count_eq, hsame.bytes_eq.trans hbytes₃⟩
    · rintro _ wal₄ ⟨hfail, hkept⟩
      refine ⟨hfail, fun hatomic => ⟨wal.recordCount, le_rfl, ?_⟩⟩
      rw [take_of_length_le h.length_compactPlan.le]
      exact (hkept hatomic).trans hbytes₃
  · rintro _ wal₃ ⟨hfail, hstopped⟩
    refine ⟨hfail, fun hatomic => ?_⟩
    obtain ⟨k, hk, hbytes₃⟩ := hstopped hatomic
    rw [hplan] at hk
    rw [← map_take, h.overwrite_plan hk] at hbytes₃
    exact ⟨k, hk, hbytes₃⟩

end

/-! ### Opening -/

/-- An empty storage becomes a log without slots. -/
theorem ensures_openStorage_empty (h : bytes w = []) :
    Ensures (fun n w' => n = 0 ∧ bytes w' = logBytes []) (fun _ _ => mayFail W)
      (openStorage w) := by
  apply Ensures.bind (ensures_lift.mpr
    ((ensures_seekEnd w).mono (fun _ _ h => h) fun _ _ h => h.elim))
  rintro pos w₁ ⟨rfl, hbytes₁, -⟩
  rw [h] at hbytes₁
  simp only [h]
  apply Ensures.bind (ensures_lift.mpr
    ((ensures_seekStart 0 w₁).mono (fun _ _ h => h) fun _ _ h => h.elim))
  rintro _ w₂ ⟨hbytes₂, hpos₂⟩
  apply Ensures.bind (ensures_lift.mpr (ensures_writeAll walHeader w₂ (hpos₂ ▸ zero_le)))
  rintro _ w₃ ⟨hbytes₃, -⟩
  apply Ensures.bind (ensures_lift.mpr (ensures_flush w₃))
  rintro _ w₄ ⟨hbytes₄, -⟩
  refine ⟨rfl, ?_⟩
  rw [hbytes₄, hbytes₃, hpos₂, hbytes₂, hbytes₁]
  rfl

/-- A file with an accepted header is opened with all its whole slots counted. -/
theorem ensures_openStorage_file {raw : List (Fixed walRecordSize)}
    (h : bytes w = fileBytes header raw torn) (haccepted : Accepted header)
    (htorn : torn.length < walRecordSize) :
    Ensures (fun n w' => n = raw.length ∧ bytes w' = bytes w) (fun _ _ => False)
      (openStorage w) := by
  have hlen : (bytes w).length = slotOffset raw.length + torn.length := by
    rw [h, length_fileBytes]
  have hcount : ((bytes w).length - walHeaderSize) / walRecordSize = raw.length := by
    rw [hlen, slotOffset, add_assoc, Nat.add_sub_cancel_left, mul_comm,
      Nat.mul_add_div (by decide), Nat.div_eq_of_lt htorn, add_zero]
  apply Ensures.bind (ensures_lift.mpr (ensures_seekEnd w))
  rintro pos w₁ ⟨rfl, hbytes₁, -⟩
  have hne : (bytes w).length ≠ 0 := by
    rw [hlen, slotOffset, walHeaderSize]
    omega
  rw [if_neg hne]
  apply Ensures.bind (ensures_lift.mpr (ensures_seekStart 0 w₁))
  rintro _ w₂ ⟨hbytes₂, hpos₂⟩
  have hin : position w₂ + walHeaderSize ≤ (bytes w₂).length := by
    rw [hbytes₂, hbytes₁, hlen, slotOffset]
    omega
  apply Ensures.bind (ensures_lift.mpr (ensures_readExact walHeaderSize w₂ hin))
  rintro read w₃ ⟨hread, hbytes₃⟩
  have hheader : read = header := by
    apply Subtype.ext
    rw [hread, hpos₂, hbytes₂, hbytes₁, h, fileBytes, append_assoc]
    exact take_left' header.2
  subst hheader
  simp only [haccepted.1, haccepted.2]
  exact ⟨hcount, hbytes₃.trans (hbytes₂.trans hbytes₁)⟩

theorem holds_of_new_empty {maxRecords : ℕ} (h : bytes w = []) (hnew : new w maxRecords = .ok wal) :
    Holds wal [] := by
  have hopen := ensures_openStorage_empty h
  rw [new] at hnew
  cases hrun : openStorage w with
  | error e w' =>
    rw [hrun] at hnew
    cases hnew
  | ok n w' =>
    rw [hrun] at hnew hopen
    cases hnew
    obtain ⟨rfl, hbytes⟩ := hopen
    exact ⟨[], ⟨hbytes, zero_le, by simp⟩, rfl⟩

/-- A file whose slots are all free or valid opens as a log with all of them counted. -/
theorem exists_new_carries (maxRecords : ℕ)
    (h : bytes w = fileBytes header (slots.map encodedSlot) torn) (haccepted : Accepted header)
    (htorn : torn.length < walRecordSize) :
    ∃ wal, new w maxRecords = .ok wal ∧ Carries wal header slots torn := by
  obtain ⟨n, w', hrun, rfl, hbytes⟩ :=
    ensures_exists_ok (ensures_openStorage_file h haccepted htorn)
  refine ⟨⟨w', maxRecords, (slots.map encodedSlot).length⟩, by rw [new, hrun],
    hbytes.trans h, haccepted, htorn, by rw [length_map], ?_⟩
  simp

/-! ### Operations -/

section

variable (h : HoldsWith header m wal pending)
include h

theorem HoldsWith.congr (hsame : SameLog wal wal') :
    HoldsWith header m wal' pending := by
  obtain ⟨slots, torn, htorn, hcarries, hpending⟩ := h
  exact ⟨slots, torn, htorn, hcarries.congr hsame, hpending⟩

theorem ensures_recover_with :
    Ensures (fun found wal' => found = pending ∧ HoldsWith header m wal' pending)
      (fun _ _ => False) (recover wal) := by
  obtain ⟨slots, torn, htorn, hcarries, rfl⟩ := h
  rw [recover]
  apply hcarries.ensures_collectPending.bind
  rintro _ wal₁ ⟨rfl, hsame⟩
  exact ⟨rfl, slots, torn, htorn, hcarries.congr hsame, rfl⟩

/-- Journaling appends, unless the log is full. -/
theorem ensures_journal_with (chunkIdx version : UInt64) (plaintextHash : Fixed 32) :
    Ensures
      (fun _ wal' => HoldsWith header m wal' (pending ++ [(chunkIdx, version, plaintextHash)]))
      (fun e wal' => e = .walFull ∧ wal' = wal ∨ mayFail W)
      (journalVersion chunkIdx version plaintextHash wal) := by
  obtain ⟨slots, torn, htorn, hcarries, rfl⟩ := h
  rw [journalVersion, ensures_get_bind]
  by_cases hfull : wal.recordCount ≥ wal.maxRecords
  · rw [if_pos hfull]
    exact Or.inl ⟨rfl, rfl⟩
  rw [if_neg hfull]
  have hle : wal.recordCount ≤ (slots.map encodedSlot).length := by
    rw [length_map]
    exact hcarries.count_le
  apply (ensures_storeRaw (WalRecord.newPending chunkIdx version plaintextHash)
    hcarries.bytes_eq hle).seq fun _ _ h => Or.inr h.1
  rintro _ wal₁ ⟨hbytes₁, hcount₁, -⟩
  apply (ensures_flushLog wal₁).seq fun _ _ h => Or.inr h.1
  intro _ wal₂ hsame
  have hcount : wal₂.recordCount = wal.recordCount := hsame.count_eq.trans hcount₁
  have hdrop : ((overwrite slots wal.recordCount
      [some (WalRecord.newPending chunkIdx version plaintextHash)]).drop (wal.recordCount + 1)) =
      slots.drop (wal.recordCount + 1) := by
    rw [← drop_drop, drop_overwrite _ hcarries.count_le]
    rfl
  have hfree : ∀ slot ∈ slots.drop (wal.recordCount + 1), slot = none := by
    intro slot hslot
    rw [← drop_drop] at hslot
    exact hcarries.free slot (mem_of_mem_drop hslot)
  refine ⟨overwrite slots wal.recordCount
    [some (WalRecord.newPending chunkIdx version plaintextHash)],
    torn.drop ((wal.recordCount + 1 - (slots.map encodedSlot).length) * walRecordSize), ?_,
    ⟨?_, hcarries.accepted, ?_, ?_, ?_⟩, ?_⟩
  · exact (drop_sublist _ _).length_le.trans htorn
  · change bytes wal₂.writer = _
    rw [hsame.bytes_eq, hbytes₁, ← overwrite_map_encodedSlot]
    rfl
  · exact (drop_sublist _ _).length_le.trans_lt hcarries.torn_lt
  · rw [length_overwrite hcarries.count_le, ← hcount]
    exact le_max_right _ _
  · change ∀ slot ∈ drop (wal₂.recordCount + 1) _, slot = none
    rw [hcount, hdrop]
    exact hfree
  · rw [overwrite, pendingRecords_append, pendingRecords_append, hcarries.pendingRecords_take,
      length_singleton, pendingRecords_eq_nil hfree, append_nil, map_append]
    rfl

/-- Committing a chunk removes its versions, if there are any. -/
theorem ensures_commit_with (chunkIdx : UInt64) :
    Ensures (fun _ wal' => (∃ p ∈ pending, p.1 = chunkIdx) ∧
        HoldsWith header m wal' (pending.filter (·.1 ≠ chunkIdx)))
      (fun e wal' => e = .recordNotFound chunkIdx ∧ (∀ p ∈ pending, p.1 ≠ chunkIdx) ∧
        HoldsWith header m wal' pending ∨ mayFail W)
      (commitVersion chunkIdx wal) := by
  obtain ⟨slots, torn, htorn, hcarries, rfl⟩ := h
  rw [commitVersion]
  apply (ensures_sweep hcarries.bytes_eq hcarries.count_le).seq fun _ _ => Or.inr
  rintro found wal₁ ⟨hfound, hbytes₁, hcount₁, -⟩
  have hany : found = true ↔ ∃ record ∈ pendingRecords slots, record.chunkIdx = chunkIdx := by
    rw [hfound, Bool.false_or, any_isPendingOf, hcarries.pendingRecords_take]
  have hswept : HoldsWith header m wal₁
      (((pendingRecords slots).map journaled).filter (·.1 ≠ chunkIdx)) := by
    have hlen : ((slots.take wal.recordCount).map (sweepSlot chunkIdx)).length =
        wal.recordCount := by simpa using hcarries.count_le
    refine ⟨_, torn, htorn, ⟨hbytes₁, hcarries.accepted, hcarries.torn_lt, ?_, ?_⟩, ?_⟩
    · rw [hcount₁, length_append, hlen]
      exact le_self_add
    · rw [hcount₁, drop_left' hlen]
      exact hcarries.free
    · rw [pendingRecords_append, pendingRecords_eq_nil hcarries.free, append_nil,
        pendingRecords_map_sweepSlot, hcarries.pendingRecords_take, filter_map]
      rfl
  cases found with
  | true =>
    refine (ensures_flushLog wal₁).mono ?_ fun _ _ h => Or.inr h.1
    intro _ wal₂ hsame
    obtain ⟨record, hrecord, hchunk⟩ := hany.mp rfl
    exact ⟨⟨journaled record, mem_map_of_mem hrecord, hchunk⟩, hswept.congr hsame⟩
  | false =>
    have hnone : ∀ p ∈ (pendingRecords slots).map journaled, p.1 ≠ chunkIdx := by
      intro p hp hchunk
      obtain ⟨record, hrecord, rfl⟩ := mem_map.mp hp
      exact Bool.false_ne_true (hany.mpr ⟨record, hrecord, hchunk⟩)
    refine Or.inl ⟨rfl, hnone, ?_⟩
    rwa [filter_eq_self.mpr (by simpa using hnone)] at hswept

/-- Compacting a log keeps what it stands for. -/
theorem ensures_compact_with :
    Ensures (fun _ wal' => HoldsWith header m wal' pending) (fun _ _ => mayFail W)
      (compact wal) := by
  obtain ⟨slots, torn, htorn, hcarries, rfl⟩ := h
  refine hcarries.ensures_compact.mono ?_ fun _ _ h => h.1
  rintro _ wal' ⟨hcount, hbytes⟩
  have hlen : ((pendingRecords slots).map some).length = (pendingRecords slots).length :=
    length_map _
  -- Behind the pending records stand the freed slots and those that were free before.
  have hfree : ∀ slot ∈ replicate (wal.recordCount - (pendingRecords slots).length) none ++
      slots.drop wal.recordCount, slot = none := by
    intro slot hslot
    rcases mem_append.mp hslot with hfreed | htail
    · exact eq_of_mem_replicate hfreed
    · exact hcarries.free slot htail
  refine ⟨compactPlan wal.recordCount slots ++ slots.drop wal.recordCount, torn, htorn,
    ⟨hbytes, hcarries.accepted, hcarries.torn_lt, ?_, ?_⟩, ?_⟩
  · rw [hcount, compactPlan, length_append, length_append, hlen, add_assoc]
    exact le_self_add
  · rw [hcount, compactPlan, append_assoc, drop_left' hlen]
    exact hfree
  · rw [pendingRecords_append, pendingRecords_compactPlan, pendingRecords_eq_nil hcarries.free,
      append_nil]

/-- A reopened log stands for what it stood for, with all slots of the file counted. -/
theorem exists_new_with (maxRecords : ℕ) :
    ∃ wal', new (mount (bytes wal.writer) : W) maxRecords = .ok wal' ∧
      HoldsWith header m wal' pending := by
  obtain ⟨slots, torn, htorn, hcarries, hpending⟩ := h
  have hmount : bytes (mount (bytes wal.writer) : W) =
      fileBytes header (slots.map encodedSlot) torn := by
    rw [bytes_mount, hcarries.bytes_eq]
  obtain ⟨wal', hnew, hcarries'⟩ :=
    exists_new_carries maxRecords hmount hcarries.accepted hcarries.torn_lt
  exact ⟨wal', hnew, slots, torn, htorn, hcarries', hpending⟩

end

end

/-! ### Runs -/

inductive WalOp
  | journalVersion (chunkIdx version : UInt64) (plaintextHash : Fixed 32)
  | commitVersion (chunkIdx : UInt64)
  | compact
  /-- Close the log and open it again on the same bytes. -/
  | reopen (maxRecords : ℕ)
  deriving DecidableEq

def apply (wal : VersionWal W) : WalOp → Except WalError (VersionWal W)
  | .journalVersion chunkIdx version plaintextHash =>
    stateOf (journalVersion chunkIdx version plaintextHash wal)
  | .commitVersion chunkIdx => stateOf (commitVersion chunkIdx wal)
  | .compact => stateOf (compact wal)
  | .reopen maxRecords => new (mount (bytes wal.writer)) maxRecords

/-- The log after a sequence of operations, if none of them fails. -/
def applyAll (wal : VersionWal W) : List WalOp → Except WalError (VersionWal W)
  | [] => .ok wal
  | op :: ops => do
    let wal' ← wal.apply op
    wal'.applyAll ops

/-- The log of a storage after a sequence of operations, if none of them fails. -/
def run (storage : W) (maxRecords : ℕ) (ops : List WalOp) : Except WalError (VersionWal W) := do
  let wal ← new storage maxRecords
  wal.applyAll ops

/-- The versions journaled and not swept by a later commit of the same chunk, in the order
in which they were journaled. -/
def outstanding : List WalOp → List Journaled
  | [] => []
  | .journalVersion chunkIdx version plaintextHash :: ops =>
    if .commitVersion chunkIdx ∈ ops then outstanding ops
    else (chunkIdx, version, plaintextHash) :: outstanding ops
  | .commitVersion _ :: ops => outstanding ops
  | .compact :: ops => outstanding ops
  | .reopen _ :: ops => outstanding ops

/-- The versions outstanding after an operation. -/
def track (pending : List Journaled) : WalOp → List Journaled
  | .journalVersion chunkIdx version plaintextHash =>
    pending ++ [(chunkIdx, version, plaintextHash)]
  | .commitVersion chunkIdx => pending.filter (·.1 ≠ chunkIdx)
  | .compact => pending
  | .reopen _ => pending

/-- Following the operations one by one leaves the versions that no later commit sweeps. -/
theorem foldl_track (ops : List WalOp) (pending : List Journaled) : ops.foldl track pending =
      pending.filter (fun p => .commitVersion p.1 ∉ ops) ++ outstanding ops := by
  induction ops generalizing pending with
  | nil => simp [outstanding]
  | cons op ops ih =>
    rw [foldl_cons, ih]
    cases op with
    | journalVersion chunkIdx version plaintextHash =>
      by_cases hswept : WalOp.commitVersion chunkIdx ∈ ops <;>
        simp [track, outstanding, hswept]
    | commitVersion chunkIdx =>
      simp [track, outstanding, Bool.and_comm]
    | compact => simp [track, outstanding]
    | reopen maxRecords => simp [track, outstanding]

/-- One operation on the log is one operation on the list it stands for. -/
theorem holdsWith_apply {header : Fixed walHeaderSize} {m : ℕ} {op : WalOp}
    (h : HoldsWith header m wal pending) (hop : wal.apply op = .ok wal') :
    HoldsWith header m wal' (track pending op) := by
  cases op with
  | journalVersion chunkIdx version plaintextHash =>
    obtain ⟨_, hrun⟩ := stateOf_eq_ok.mp hop
    exact (ensures_journal_with h chunkIdx version plaintextHash).of_ok hrun
  | commitVersion chunkIdx =>
    obtain ⟨_, hrun⟩ := stateOf_eq_ok.mp hop
    exact ((ensures_commit_with h chunkIdx).of_ok hrun).2
  | compact =>
    obtain ⟨_, hrun⟩ := stateOf_eq_ok.mp hop
    exact (ensures_compact_with h).of_ok hrun
  | reopen maxRecords =>
    obtain ⟨wal'', hnew, hholds⟩ := exists_new_with h maxRecords
    have heq : wal'' = wal' := Except.ok.inj (hnew.symm.trans hop)
    exact heq ▸ hholds

/-- A run of operations on the log is a run on the list it stands for. -/
theorem holdsWith_applyAll {header : Fixed walHeaderSize} {m : ℕ} {ops : List WalOp}
    (h : HoldsWith header m wal pending) (hops : wal.applyAll ops = .ok wal') :
    HoldsWith header m wal' (ops.foldl track pending) := by
  induction ops generalizing wal pending with
  | nil =>
    cases hops
    exact h
  | cons op ops ih =>
    obtain ⟨wal₁, hop, hrest⟩ := Fallible.bind_ok_iff.mp hops
    exact ih (holdsWith_apply h hop) hrest

/-- After any run of journaling, commits, compactions and reopenings that all succeed,
recovery returns exactly the versions journaled and not swept since. -/
theorem recover_eq_outstanding {storage : W} (hempty : bytes storage = []) {maxRecords : ℕ}
    {ops : List WalOp} {wal : VersionWal W} (hrun : run storage maxRecords ops = .ok wal) :
    ∃ wal', recover wal = .ok (outstanding ops) wal' := by
  obtain ⟨wal₀, hnew, hops⟩ := Fallible.bind_ok_iff.mp hrun
  have hholds := holdsWith_applyAll (holds_iff.mp (holds_of_new_empty hempty hnew)) hops
  rw [foldl_track] at hholds
  obtain ⟨found, wal', hrec, rfl, -⟩ := ensures_exists_ok (ensures_recover_with hholds)
  exact ⟨wal', hrec⟩

/-- Two writes of chunk 7 around one of chunk 3; the commit sweeps both. Compaction then leaves
two freed slots, which the reopened log counts, so that the last record lands behind them. -/
theorem recover_eq_outstanding_behind_freed_slots :
    ∃ wal wal', run (⟨[], 0⟩ : Cursor) 4
        [.journalVersion 7 1 ⟨replicate 32 0xA1, rfl⟩,
         .journalVersion 3 1 ⟨replicate 32 0xA2, rfl⟩,
         .journalVersion 7 2 ⟨replicate 32 0xA3, rfl⟩,
         .commitVersion 7, .compact, .reopen 4,
         .journalVersion 7 3 ⟨replicate 32 0xA4, rfl⟩] = .ok wal ∧ wal.recordCount = 4 ∧
      recover wal = .ok [(3, 1, ⟨replicate 32 0xA2, rfl⟩),
        (7, 3, ⟨replicate 32 0xA4, rfl⟩)] wal' := by
  refine Exists.imp (p := fun wal => run (⟨[], 0⟩ : Cursor) 4 _ = .ok wal ∧ wal.recordCount = 4)
    (fun wal h => (recover_eq_outstanding rfl h.1).imp fun _ hrec => ⟨h.1, h.2, hrec⟩)
    (Fallible.exists_ok_of_map_eq ?_)
  decide +kernel

end VersionWal

end ClawHdf5.Filters
