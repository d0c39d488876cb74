import ClawHdf5.Filters.WalFile

/-!
# What a failed commit leaves behind

A commit sweeps the slots of the log from the last one down, and validates and rewrites them in
the same pass. When it meets a corrupt slot it gives up, but the pending records of the chunk that
stand behind that slot have been rewritten by then. A commit is all or nothing exactly when no
pending record of the chunk stands behind the last corrupt slot.
-/

namespace ClawHdf5.Filters

open Bytes Stateful LawfulStorage List

namespace VersionWal

/-- Whether a slot can be read: it is freed or holds a record with a valid checksum and status. -/
def isReadable (slot : Fixed walRecordSize) : Bool := (slotContent slot).isSome

theorem isReadable_iff {slot : Fixed walRecordSize} :
    isReadable slot = true ↔ slotContent slot ≠ none := by
  rw [isReadable, Option.isSome_iff_ne_none]

/-- The slots behind the last corrupt one, from the last one down. There are none if no slot is
corrupt. -/
def behindCorrupt (slots : List (Fixed walRecordSize)) : List (Fixed walRecordSize) :=
  if slots.all isReadable then [] else slots.reverse.takeWhile isReadable

theorem behindCorrupt_of_readable {slots : List (Fixed walRecordSize)}
    (h : ∀ slot ∈ slots, slotContent slot ≠ none) : behindCorrupt slots = [] :=
  if_pos (all_eq_true.mpr fun slot hslot => isReadable_iff.mpr (h slot hslot))

theorem behindCorrupt_append {before behind : List (Fixed walRecordSize)}
    {bad : Fixed walRecordSize} (hbad : slotContent bad = none)
    (hbehind : ∀ slot ∈ behind, slotContent slot ≠ none) :
    behindCorrupt (before ++ bad :: behind) = behind.reverse := by
  have hunreadable : isReadable bad = false := by
    rw [isReadable, hbad]
    rfl
  have hreadable : ∀ slot ∈ behind.reverse, isReadable slot = true :=
    fun slot hslot => isReadable_iff.mpr (hbehind slot (mem_reverse.mp hslot))
  have hcorrupt : ¬ (before ++ bad :: behind).all isReadable = true := by
    intro hall
    have := all_eq_true.mp hall bad (mem_append_right _ mem_cons_self)
    rw [hunreadable] at this
    cases this
  rw [behindCorrupt, if_neg hcorrupt, reverse_append, reverse_cons, append_assoc,
    takeWhile_append_of_pos hreadable, singleton_append,
    takeWhile_cons_of_neg (by rw [hunreadable]; exact Bool.false_ne_true), append_nil]

theorem sweepRaw_eq_self_iff {chunkIdx : UInt64} {slot : Fixed walRecordSize} :
    sweepRaw chunkIdx slot = slot ↔ isPendingRaw chunkIdx slot = false := by
  unfold sweepRaw isPendingRaw
  split
  case h_1 record hcontent =>
    by_cases hpending : record.chunkIdx = chunkIdx ∧ record.status = .pending
    · rw [if_pos hpending, decide_eq_true hpending]
      refine iff_of_false ?_ Bool.noConfusion
      -- The swept slot holds another record: its status has changed.
      intro hsame
      rw [← hsame] at hcontent
      have hread := slotContent_eq_some.mp hcontent
      have hrecord := (WalRecord.fromBytes_toBytes { record with status := .committed }).symm.trans
        ((congrArg WalRecord.fromBytes (Subtype.ext hread)).trans record.fromBytes_toBytes)
      have hstatus := congrArg WalRecord.status (Except.ok.inj hrecord)
      rw [hpending.2] at hstatus
      cases hstatus
    · rw [if_neg hpending, decide_eq_false hpending]
      exact iff_of_true rfl rfl
  case h_2 => exact iff_of_true rfl rfl

theorem map_sweepRaw_eq_self_iff {chunkIdx : UInt64} {slots : List (Fixed walRecordSize)} :
    slots.map (sweepRaw chunkIdx) = slots ↔ ∀ slot ∈ slots, isPendingRaw chunkIdx slot = false := by
  have hmap : slots.map (sweepRaw chunkIdx) = slots.map id ↔
      ∀ slot ∈ slots, sweepRaw chunkIdx slot = slot := map_inj_left
  rw [map_id] at hmap
  exact hmap.trans (forall₂_congr fun _ _ => sweepRaw_eq_self_iff)

variable {W : Type} [Storage W] [LawfulStorage W] {wal : VersionWal W}
  {header : Fixed walHeaderSize} {slots : List (Fixed walRecordSize)} {rest : Bytes}

/-- A commit that fails leaves the file as it was. One that succeeds rewrites the slots with a
pending record of the chunk as committed, and changes no other byte. -/
structure AllOrNothing (chunkIdx : UInt64) (header : Fixed walHeaderSize)
    (slots : List (Fixed walRecordSize)) (rest : Bytes) (wal : VersionWal W) : Prop where
  all {u : Unit} {wal' : VersionWal W} : commitVersion chunkIdx wal = .ok u wal' →
    bytes wal'.writer = fileBytes header (slots.map (sweepRaw chunkIdx)) rest
  nothing {e : WalError} {wal' : VersionWal W} : commitVersion chunkIdx wal = .error e wal' →
    bytes wal'.writer = bytes wal.writer

/-- How a commit ends on a storage that does not fail. -/
theorem ensures_commitVersion_raw (hreliable : ¬ mayFail W)
    (hbytes : bytes wal.writer = fileBytes header slots rest)
    (hcount : wal.recordCount = slots.length) (chunkIdx : UInt64) :
    Ensures (fun _ wal' => (∀ slot ∈ slots, slotContent slot ≠ none) ∧
        bytes wal'.writer = fileBytes header (slots.map (sweepRaw chunkIdx)) rest)
      (fun _ wal' =>
        ((∀ slot ∈ slots, slotContent slot ≠ none) ∧ bytes wal'.writer = bytes wal.writer) ∨
        SweptBehind chunkIdx header slots rest slots.length wal')
      (commitVersion chunkIdx wal) := by
  rw [commitVersion, ensures_get_bind, hcount]
  apply (ensures_sweepRaw hbytes le_rfl).seq fun _ _ h => Or.inr (h.resolve_left hreliable)
  rintro found wal₁ ⟨hreadable, hfound, hbytes₁, -, -⟩
  rw [take_length] at hreadable hfound hbytes₁
  rw [drop_length, append_nil] at hbytes₁
  cases found with
  | true =>
    refine (ensures_flushLog wal₁).mono ?_ fun _ _ h => absurd h.1 hreliable
    intro _ wal₂ hsame
    exact ⟨hreadable, hsame.bytes_eq.trans hbytes₁⟩
  | false =>
    -- No slot held a pending record of the chunk, so that none was rewritten.
    have hnone : ∀ slot ∈ slots, isPendingRaw chunkIdx slot = false := by
      simpa using hfound
    refine Or.inl ⟨hreadable, ?_⟩
    rw [hbytes₁, map_sweepRaw_eq_self_iff.mpr hnone, hbytes]

/-- On a storage that does not fail, whatever the slots hold, a commit is all or nothing exactly
if no pending record of the chunk stands behind the last corrupt slot. -/
theorem commitVersion_allOrNothing_iff (hreliable : ¬ mayFail W)
    (hbytes : bytes wal.writer = fileBytes header slots rest)
    (hcount : wal.recordCount = slots.length) (chunkIdx : UInt64) :
    AllOrNothing chunkIdx header slots rest wal ↔
      ∀ slot ∈ behindCorrupt slots, isPendingRaw chunkIdx slot = false := by
  have hrun := ensures_commitVersion_raw hreliable hbytes hcount chunkIdx
  cases hres : commitVersion chunkIdx wal with
  | ok u wal' =>
    rw [hres] at hrun
    obtain ⟨hreadable, hbytes'⟩ := hrun
    rw [behindCorrupt_of_readable hreadable]
    refine iff_of_true ⟨?_, ?_⟩ (by simp)
    · intro u' wal'' heq
      rw [hres] at heq
      cases heq
      exact hbytes'
    · intro e wal'' heq
      rw [hres] at heq
      cases heq
  | error e wal' =>
    rw [hres] at hrun
    -- The commit failed, so the file must be unchanged.
    have hnothing : AllOrNothing chunkIdx header slots rest wal ↔
        bytes wal'.writer = bytes wal.writer := by
      constructor
      · intro h
        exact h.nothing hres
      · intro hsame
        refine ⟨fun heq => ?_, fun heq => ?_⟩
        · rw [hres] at heq
          cases heq
        · rw [hres] at heq
          cases heq
          exact hsame
    rw [hnothing]
    rcases hrun with ⟨hreadable, hsame⟩ | ⟨before, bad, behind, hsplit, hbad, hbehind, hbytes'⟩
    · rw [behindCorrupt_of_readable hreadable]
      exact iff_of_true hsame (by simp)
    · rw [take_length] at hsplit
      rw [drop_length, append_nil] at hbytes'
      rw [hbytes', hbytes, hsplit, behindCorrupt_append hbad hbehind]
      simp only [mem_reverse]
      rw [← map_sweepRaw_eq_self_iff]
      constructor
      · intro hsame
        exact (cons.inj (append_cancel_left (fileBytes_inj hsame))).2
      · intro hsame
        rw [hsame]

/-- The bytes of the journaled version 1 of a chunk. -/
def sampleRecord (chunkIdx : UInt64) : Fixed walRecordSize :=
  (WalRecord.newPending chunkIdx 1 ⟨replicate 32 0xAB, rfl⟩).toBytes

/-- The same bytes with the fifth byte behind the status inverted. -/
def damagedRecord (chunkIdx : UInt64) : Fixed walRecordSize :=
  ⟨(sampleRecord chunkIdx).1.set 5 0xFF, by rw [List.length_set]; exact (sampleRecord chunkIdx).2⟩

def twoSlots (first second : Fixed walRecordSize) : VersionWal Cursor :=
  ⟨⟨fileBytes ⟨walHeader, rfl⟩ [first, second] [], 0⟩, 100, 2⟩

/-- The pending record of the chunk stands before the corrupt slot: the commit fails and changes
nothing. -/
theorem commitVersion_allOrNothing_before_corrupt :
    (∃ e wal', commitVersion 1 (twoSlots (sampleRecord 1) (damagedRecord 0)) = .error e wal' ∧
        e = .corruptRecord 1) ∧
      AllOrNothing 1 ⟨walHeader, rfl⟩ [sampleRecord 1, damagedRecord 0] []
        (twoSlots (sampleRecord 1) (damagedRecord 0)) := by
  have hreliable : ¬ mayFail Cursor := id
  have hbehind : ∀ slot ∈ behindCorrupt [sampleRecord 1, damagedRecord 0],
      isPendingRaw 1 slot = false := by decide +kernel
  refine ⟨by decide +kernel, ?_⟩
  exact (commitVersion_allOrNothing_iff hreliable rfl rfl 1).mpr hbehind

/-- The pending record of the chunk stands behind the corrupt slot: the commit fails, but the
record has become a committed one. -/
theorem commitVersion_partial :
    ∃ e wal', commitVersion 1 (twoSlots (damagedRecord 0) (sampleRecord 1)) = .error e wal' ∧
      e = .corruptRecord 0 ∧
      wal'.writer.bytes ≠ (twoSlots (damagedRecord 0) (sampleRecord 1)).writer.bytes := by
  decide +kernel

end VersionWal

end ClawHdf5.Filters
