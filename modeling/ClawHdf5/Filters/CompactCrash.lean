import ClawHdf5.Filters.WalRefinement

/-!
# Crashes during compaction

Compaction moves the pending records of the log to the front, one record after the other, and
then frees the slots behind them. It overwrites the log in place, so a crash on the way leaves
some records twice and others that were committed. No pending record is lost, though: a record
never moves back, so that a slot is overwritten only after the records before it were copied. And
no committed record comes back, since compaction writes pending records and free slots only.
-/

namespace ClawHdf5.Filters

open Bytes Stateful LawfulStorage List

namespace VersionWal

/-- After any number of the writes of compaction the same records are pending. -/
theorem mem_pendingRecords_crash {n k : ℕ} {slots : List (Option WalRecord)} {r : WalRecord} :
    r ∈ pendingRecords ((compactPlan n slots).take k ++ slots.drop k) ↔
      r ∈ pendingRecords slots := by
  have hsplit : pendingRecords slots =
      pendingRecords (slots.take k) ++ pendingRecords (slots.drop k) := by
    rw [← pendingRecords_append, take_append_drop]
  rw [pendingRecords_append, mem_append]
  constructor
  · rintro (hmoved | hold)
    · have hmem := List.Sublist.mem hmoved ((take_sublist k _).filterMap pendingRecord)
      exact (pendingRecords_compactPlan n slots) ▸ hmem
    · rw [hsplit]
      exact mem_append_right _ hold
  · intro hmem
    rw [hsplit] at hmem
    rcases mem_append.mp hmem with hbefore | hbehind
    · -- At most `k` records are pending in the first `k` slots, and the plan starts with them.
      left
      have hfew : ((pendingRecords (slots.take k)).map some).length ≤ k := by
        rw [length_map]
        exact (length_pendingRecords_le _).trans (length_take_le _ _)
      rw [compactPlan, hsplit, map_append, append_assoc, take_append, take_of_length_le hfew,
        pendingRecords_append, pendingRecords_map_some fun _ => status_of_mem_pendingRecords]
      exact mem_append_left _ hbefore
    · exact Or.inr hbehind

/-- However compaction ends, the file consists of the first slots of its plan and the old slots
behind them. -/
theorem Carries.exists_file_after_compact {W : Type} [Storage W] [LawfulStorage W]
    [AtomicStorage W] {wal : VersionWal W} {header : Fixed walHeaderSize}
    {slots : List (Option WalRecord)} {torn : Bytes} (h : Carries wal header slots torn) :
    ∃ k, bytes (finalState (compact wal)).writer = fileBytes header
      (((compactPlan wal.recordCount slots).take k ++ slots.drop k).map encodedSlot) torn := by
  refine finalState_of_ensures (P := fun wal' => ∃ k, bytes wal'.writer = fileBytes header
    (((compactPlan wal.recordCount slots).take k ++ slots.drop k).map encodedSlot) torn)
    (h.ensures_compact.mono ?_ ?_)
  · rintro _ wal' ⟨-, hbytes⟩
    refine ⟨wal.recordCount, ?_⟩
    rw [take_of_length_le h.length_compactPlan.le]
    exact hbytes
  · rintro _ wal' ⟨-, hstopped⟩
    obtain ⟨k, -, hbytes⟩ := hstopped inferInstance
    exact ⟨k, hbytes⟩

/-- The file of a log when the power fails after a number of the writes of compaction. -/
def crashDuringCompact (wal : VersionWal Cursor) (writes : ℕ) : Bytes :=
  let failing : VersionWal FailingCursor :=
    ⟨⟨wal.writer, writes⟩, wal.maxRecords, wal.recordCount⟩
  (finalState (compact failing)).writer.cursor.bytes

/-- A log whose slots are all free or valid, and whose compaction stops after any number of whole
writes, is reopened, and recovers the same versions as before. -/
theorem recover_after_compact_crash {wal : VersionWal Cursor} {header : Fixed walHeaderSize}
    {slots : List (Option WalRecord)} {torn : Bytes} (h : Carries wal header slots torn)
    (writes maxRecords : ℕ) :
    ∃ before wal₀ reopened found wal₁, recover wal = .ok before wal₀ ∧
      new (⟨crashDuringCompact wal writes, 0⟩ : Cursor) maxRecords = .ok reopened ∧
      recover reopened = .ok found wal₁ ∧ ∀ version, version ∈ found ↔ version ∈ before := by
  have hfailing : Carries
      (⟨⟨wal.writer, writes⟩, wal.maxRecords, wal.recordCount⟩ : VersionWal FailingCursor)
      header slots torn := ⟨h.bytes_eq, h.accepted, h.torn_lt, h.count_le, h.free⟩
  obtain ⟨k, hfile⟩ := hfailing.exists_file_after_compact
  obtain ⟨reopened, hnew, hcarries⟩ :=
    @exists_new_carries Cursor _ _ ⟨crashDuringCompact wal writes, 0⟩ header _ torn maxRecords
      hfile h.accepted h.torn_lt
  obtain ⟨before, wal₀, hbefore, hb, -⟩ :=
    ensures_exists_ok (ensures_recover_with ⟨slots, torn, le_rfl, h, rfl⟩)
  obtain ⟨found, wal₁, hfound, hf, -⟩ :=
    ensures_exists_ok (ensures_recover_with ⟨_, torn, le_rfl, hcarries, rfl⟩)
  refine ⟨before, wal₀, reopened, found, wal₁, hbefore, hnew, hfound, ?_⟩
  intro version
  rw [hb, hf, mem_map, mem_map]
  exact exists_congr fun r => and_congr_left fun _ => mem_pendingRecords_crash

/-- A record of chunk 7 with a given status. -/
def crashRecord (status : WalRecordStatus) : WalRecord :=
  ⟨status, 7, 1, ⟨replicate 32 0xA1, rfl⟩⟩

/-- A committed record before a pending one, with a reserved byte set in the header and three
bytes of a further record. -/
def crashSample : VersionWal Cursor :=
  ⟨⟨fileBytes ⟨walMagic ++ [walVersion, 0, 0, 1], rfl⟩
    ([some (crashRecord .committed), some (crashRecord .pending)].map encodedSlot) [1, 7, 0], 0⟩,
    8, 2⟩

/-- After one write the pending record stands in both slots. -/
theorem recover_after_compact_crash_one_write :
    crashDuringCompact crashSample 1 = fileBytes ⟨walMagic ++ [walVersion, 0, 0, 1], rfl⟩
        ([some (crashRecord .pending), some (crashRecord .pending)].map encodedSlot) [1, 7, 0] ∧
      ∃ before wal₀ reopened found wal₁, recover crashSample = .ok before wal₀ ∧
        new (⟨crashDuringCompact crashSample 1, 0⟩ : Cursor) 8 = .ok reopened ∧
        recover reopened = .ok found wal₁ ∧ ∀ version, version ∈ found ↔ version ∈ before := by
  have hsample : Carries crashSample ⟨walMagic ++ [walVersion, 0, 0, 1], rfl⟩
      [some (crashRecord .committed), some (crashRecord .pending)] [1, 7, 0] :=
    ⟨rfl, ⟨rfl, rfl⟩, by decide, le_rfl, by simp [crashSample]⟩
  exact ⟨by decide +kernel, recover_after_compact_crash hsample 1 8⟩

end VersionWal

end ClawHdf5.Filters
