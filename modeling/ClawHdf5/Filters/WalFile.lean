import ClawHdf5.Filters.VersionWal

/-!
# The log as a file of slots

The file of a log is a header of eight bytes, slots of equal width and whatever stands behind
them: a record that was cut off, or slots that are not counted. Each operation on the storage is
an operation on the list of slots. Nothing is assumed of the slots here, so that corrupt ones are
covered; the scans of the log are then followed slot by slot.
-/

namespace ClawHdf5.Filters

open Bytes Stateful Overwrite LawfulStorage List Subtype

/-- The bytes of a file with the given header and slots, and what stands behind the slots. -/
def fileBytes (header : Fixed walHeaderSize) (slots : List (Fixed walRecordSize)) (rest : Bytes) :
    Bytes :=
  header.1 ++ slots.flatMap Subtype.val ++ rest

section

variable {header : Fixed walHeaderSize} {slots : List (Fixed walRecordSize)} {rest : Bytes}

theorem length_fileBytes : (fileBytes header slots rest).length =
    slotOffset slots.length + rest.length := by
  rw [fileBytes, length_append, length_append, header.2,
    length_slots (fun slot : Fixed walRecordSize => slot.2)]
  rfl

/-- Writing slots from a slot's offset on; the write may run into what stands behind them. -/
theorem overwrite_fileBytes (new : List (Fixed walRecordSize)) {i : ℕ} (hi : i ≤ slots.length) :
    overwrite (fileBytes header slots rest) (slotOffset i) (new.flatMap val) =
      fileBytes header (overwrite slots i new)
        (rest.drop ((i + new.length - slots.length) * walRecordSize)) := by
  have hf (slot : Fixed walRecordSize) : slot.1.length = walRecordSize := slot.2
  have hlen : (header.1 ++ slots.flatMap val).length = slotOffset slots.length := by
    rw [length_append, header.2, length_slots hf]
    rfl
  have hstart : slotOffset i ≤ (header.1 ++ slots.flatMap val).length := by
    rw [hlen]
    exact Nat.add_le_add_left (Nat.mul_le_mul_right _ hi) _
  have hdrop : slotOffset i + (new.flatMap val).length - (header.1 ++ slots.flatMap val).length =
      (i + new.length - slots.length) * walRecordSize := by
    rw [hlen, length_slots hf, Nat.sub_mul, add_mul, slotOffset, slotOffset]
    omega
  have hslots := overwrite_slots hf header.1 slots new i
  rw [header.2] at hslots
  rw [fileBytes, overwrite_append_rest hstart, hdrop, slotOffset, hslots, fileBytes]

theorem fileBytes_inj {slots' : List (Fixed walRecordSize)}
    (h : fileBytes header slots rest = fileBytes header slots' rest) : slots = slots' :=
  flatMap_inj_of_length (by decide) (fun slot => slot.2) val_injective
    (append_cancel_left (append_cancel_right h))

end

namespace VersionWal

section

variable {W : Type} {α : Type}

theorem ensures_io {x : EStateM IoError W α} {wal : VersionWal W} {Q : α → VersionWal W → Prop}
    {R : WalError → VersionWal W → Prop} :
    Ensures Q R (io x wal) ↔ Ensures (fun a w => Q a { wal with writer := w })
        (fun e w => R (.io e) { wal with writer := w }) (x wal.writer) :=
  ensures_within

theorem ensures_lift {x : EStateM IoError W α} {w : W} {Q : α → W → Prop}
    {R : WalError → W → Prop} :
    Ensures Q R (openStorage.lift x w) ↔ Ensures Q (fun e w' => R (.io e) w') (x w) :=
  ensures_within

variable [Storage W] [LawfulStorage W]

/-- Two states of a log with the same file and the same counted slots. -/
structure SameLog (wal wal' : VersionWal W) : Prop where
  bytes_eq : bytes wal'.writer = bytes wal.writer
  count_eq : wal'.recordCount = wal.recordCount
  max_eq : wal'.maxRecords = wal.maxRecords

theorem SameLog.trans {wal wal' wal'' : VersionWal W} (h : SameLog wal wal')
    (h' : SameLog wal' wal'') : SameLog wal wal'' :=
  ⟨h'.bytes_eq.trans h.bytes_eq, h'.count_eq.trans h.count_eq, h'.max_eq.trans h.max_eq⟩

end

/-! ### Slots -/

variable {W : Type} [Storage W] [LawfulStorage W]

section

variable {wal : VersionWal W} {header : Fixed walHeaderSize} {slots : List (Fixed walRecordSize)}
  {rest : Bytes}

theorem ensures_seek (wal : VersionWal W) (offset : ℕ) :
    Ensures (fun _ wal' => SameLog wal wal' ∧ position wal'.writer = offset) (fun _ _ => False)
      (io (Storage.seekStart offset) wal) := by
  rw [ensures_io]
  refine (ensures_seekStart offset wal.writer).mono ?_ fun _ _ h => h
  rintro _ w ⟨hbytes, hpos⟩
  exact ⟨⟨hbytes, rfl, rfl⟩, hpos⟩

section

variable {i : ℕ} {slot : Fixed walRecordSize}
  (hbytes : bytes wal.writer = fileBytes header slots rest)
include hbytes

theorem ensures_readRaw (hpos : position wal.writer = slotOffset i) (hi : slots[i]? = some slot) :
    Ensures (fun buf wal' => buf = slot ∧ SameLog wal wal') (fun _ _ => False)
      (io (Storage.readExact walRecordSize) wal) := by
  have hlt : i < slots.length := (List.getElem?_eq_some_iff.mp hi).1
  have hend : slotOffset i + walRecordSize ≤ slotOffset slots.length := by
    have hnext := Nat.mul_le_mul_right walRecordSize hlt
    rw [Nat.succ_mul] at hnext
    exact (add_assoc _ _ _).trans_le (Nat.add_le_add_left hnext _)
  have hin : position wal.writer + walRecordSize ≤ (bytes wal.writer).length := by
    rw [hpos, hbytes, length_fileBytes]
    exact hend.trans le_self_add
  rw [ensures_io]
  refine (ensures_readExact walRecordSize wal.writer hin).mono ?_ fun _ _ h => h
  rintro buf w ⟨hbuf, hsame⟩
  refine ⟨Subtype.ext ?_, hsame, rfl, rfl⟩
  -- The slot lies before what stands behind the slots.
  have hslots : (header.1 ++ slots.flatMap Subtype.val).length = slotOffset slots.length := by
    have hlen := @length_fileBytes header slots []
    rwa [fileBytes, append_nil] at hlen
  have hread := take_drop_slots (fun slot : Fixed walRecordSize => slot.2) header.1 hi
  rw [header.2] at hread
  rw [hbuf, hbytes, hpos, fileBytes, drop_append_of_le_length (by rw [hslots]; omega),
    take_append_of_le_length (by rw [length_drop]; omega)]
  exact hread

theorem ensures_loadRaw (hi : slots[i]? = some slot) :
    Ensures (fun content wal' => slotContent slot = some content ∧ SameLog wal wal')
      (fun e wal' => e = .corruptRecord i ∧ slotContent slot = none ∧ SameLog wal wal')
      (loadSlot i wal) := by
  apply (ensures_seek wal (slotOffset i)).seq fun _ _ h => h.elim
  rintro _ wal₁ ⟨hsame₁, hpos⟩
  apply (ensures_readRaw (hsame₁.bytes_eq.trans hbytes) hpos hi).seq fun _ _ h => h.elim
  rintro buf wal₂ ⟨hbuf, hsame₂⟩
  rw [hbuf, parseSlot_eq]
  cases slotContent slot with
  | none => exact ⟨rfl, rfl, hsame₁.trans hsame₂⟩
  | some content => exact ⟨rfl, hsame₁.trans hsame₂⟩

theorem ensures_peekRaw (hi : slots[i]? = some slot) : Ensures
      (fun read wal' => (∃ content, read = some content ∧ slotContent slot = some content) ∧
        SameLog wal wal')
      (fun e wal' => e = .corruptRecord i ∧ slotContent slot = none ∧ SameLog wal wal')
      (peekSlot i wal) := by
  apply (ensures_seek wal (slotOffset i)).seq fun _ _ h => h.elim
  rintro _ wal₁ ⟨hsame₁, hpos⟩
  have hread : Ensures (fun r wal' => r = .ok slot ∧ SameLog wal₁ wal')
      (fun e wal' => e = .corruptRecord i ∧ slotContent slot = none ∧ SameLog wal wal')
      (attempt (io (Storage.readExact walRecordSize)) wal₁ :
        EStateM.Result WalError (VersionWal W) (Except WalError (Fixed walRecordSize))) := by
    rw [ensures_attempt]
    refine (ensures_readRaw (hsame₁.bytes_eq.trans hbytes) hpos hi).mono ?_ fun _ _ h => h.elim
    rintro buf wal₂ ⟨hbuf, hsame₂⟩
    exact ⟨congrArg Except.ok hbuf, hsame₂⟩
  apply hread.bind
  rintro _ wal₂ ⟨rfl, hsame₂⟩
  simp only [parseSlot_eq]
  cases slotContent slot with
  | none => exact ⟨rfl, rfl, hsame₁.trans hsame₂⟩
  | some content => exact ⟨⟨content, rfl, rfl⟩, hsame₁.trans hsame₂⟩

end

/-- How a write ends that does not succeed. On a storage that writes all or nothing, the file
stays as it was. -/
def Failed (wal wal' : VersionWal W) : Prop :=
  mayFail W ∧ (AtomicStorage W → bytes wal'.writer = bytes wal.writer)

theorem ensures_atomic {b : Bytes} {r : EStateM.Result StorageError W Unit}
    (h : AtomicStorage W → Ensures (fun _ _ => True) (fun _ w' => bytes w' = b) r) :
    Ensures (fun _ _ => True) (fun _ w' => AtomicStorage W → bytes w' = b) r := by
  cases r with
  | ok _ _ => exact trivial
  | error _ _ => exact h

/-- Writing slots at a slot's offset. -/
theorem ensures_writeRaw {i : ℕ} (new : List (Fixed walRecordSize))
    (hbytes : bytes wal.writer = fileBytes header slots rest)
    (hpos : position wal.writer = slotOffset i) (hi : i ≤ slots.length) :
    Ensures (fun _ wal' => bytes wal'.writer = fileBytes header (overwrite slots i new)
          (rest.drop ((i + new.length - slots.length) * walRecordSize)) ∧
        position wal'.writer = slotOffset (i + new.length) ∧
        wal'.recordCount = wal.recordCount ∧ wal'.maxRecords = wal.maxRecords)
      (fun _ wal' => Failed wal wal') (io (Storage.writeAll (new.flatMap val)) wal) := by
  have hin : position wal.writer ≤ (bytes wal.writer).length := by
    rw [hpos, hbytes, length_fileBytes]
    exact Nat.le_add_right_of_le (Nat.add_le_add_left (Nat.mul_le_mul_right _ hi) _)
  have hend : slotOffset i + new.length * walRecordSize = slotOffset (i + new.length) := by
    simp only [slotOffset]
    ring
  have hatomic := ensures_atomic fun h : AtomicStorage W =>
    h.ensures_writeAll_error (new.flatMap val) wal.writer
  rw [ensures_io]
  refine ((ensures_writeAll (new.flatMap val) wal.writer hin).and hatomic).mono ?_ fun _ _ h => h
  rintro _ w ⟨⟨hover, hafter⟩, -⟩
  refine ⟨?_, ?_, rfl, rfl⟩
  · rw [hover, hbytes, hpos, overwrite_fileBytes new hi]
  · rw [hafter, hpos, length_slots (fun slot : Fixed walRecordSize => slot.2), hend]

theorem ensures_flushLog (wal : VersionWal W) :
    Ensures (fun _ wal' => SameLog wal wal') (fun _ wal' => Failed wal wal')
      (io Storage.flush wal) := by
  have hatomic := ensures_atomic fun h : AtomicStorage W => h.ensures_flush_error wal.writer
  rw [ensures_io]
  refine ((ensures_flush wal.writer).and hatomic).mono ?_ fun _ _ h => h
  rintro _ w ⟨⟨hbytes, -⟩, -⟩
  exact ⟨hbytes, rfl, rfl⟩

theorem ensures_storeRaw {i : ℕ} (record : WalRecord)
    (hbytes : bytes wal.writer = fileBytes header slots rest) (hi : i ≤ slots.length) :
    Ensures (fun _ wal' => bytes wal'.writer = fileBytes header (overwrite slots i [record.toBytes])
          (rest.drop ((i + 1 - slots.length) * walRecordSize)) ∧
        wal'.recordCount = wal.recordCount ∧ wal'.maxRecords = wal.maxRecords)
      (fun _ wal' => Failed wal wal') (storeSlot i record wal) := by
  apply (ensures_seek wal (slotOffset i)).seq fun _ _ h => h.elim
  rintro _ wal₁ ⟨hsame, hpos⟩
  have hwrite := ensures_writeRaw [record.toBytes] (hsame.bytes_eq.trans hbytes) hpos hi
  rw [flatMap_singleton] at hwrite
  refine hwrite.mono ?_ ?_
  · rintro _ wal₂ ⟨hbytes₂, -, hcount, hmax⟩
    exact ⟨hbytes₂, hcount.trans hsame.count_eq, hmax.trans hsame.max_eq⟩
  · rintro _ wal₂ ⟨hfail, hkept⟩
    exact ⟨hfail, fun h => (hkept h).trans hsame.bytes_eq⟩

/-- Slots written one by one from a slot's offset on. On a storage that writes all or nothing, a
failure leaves the file with the slots written before it. -/
theorem ensures_writeEachRaw {i : ℕ} (new : List (Fixed walRecordSize))
    (hbytes : bytes wal.writer = fileBytes header slots rest)
    (hpos : position wal.writer = slotOffset i) (hi : i ≤ slots.length) :
    Ensures (fun _ wal' => bytes wal'.writer = fileBytes header (overwrite slots i new)
          (rest.drop ((i + new.length - slots.length) * walRecordSize)) ∧
        position wal'.writer = slotOffset (i + new.length) ∧
        wal'.recordCount = wal.recordCount ∧ wal'.maxRecords = wal.maxRecords)
      (fun _ wal' => mayFail W ∧ (AtomicStorage W → ∃ k ≤ new.length,
        bytes wal'.writer = fileBytes header (overwrite slots i (new.take k))
          (rest.drop ((i + k - slots.length) * walRecordSize))))
      (writeEach (new.map val) wal) := by
  induction new generalizing i wal slots rest with
  | nil =>
    refine ⟨?_, hpos, rfl, rfl⟩
    rw [overwrite_nil, length_nil, add_zero, Nat.sub_eq_zero_of_le hi, zero_mul, drop_zero, hbytes]
  | cons slot new ih =>
    -- The file after one slot and then `k` more.
    have hfile (k : ℕ) : fileBytes header
      (overwrite (overwrite slots i [slot]) (i + 1) (new.take k))
        ((rest.drop ((i + 1 - slots.length) * walRecordSize)).drop
          ((i + 1 + k - (overwrite slots i [slot]).length) * walRecordSize)) =
        fileBytes header (overwrite slots i ((slot :: new).take (k + 1)))
          (rest.drop ((i + (k + 1) - slots.length) * walRecordSize)) := by
      have hdrop : (i + 1 - slots.length) + (i + 1 + k - (overwrite slots i [slot]).length) =
          i + (k + 1) - slots.length := by
        rw [length_overwrite hi, length_singleton]
        omega
      rw [drop_drop, ← add_mul, hdrop]
      exact congrArg (fileBytes header · _) (overwrite_append hi)
    have hwrite := ensures_writeRaw [slot] hbytes hpos hi
    rw [flatMap_singleton] at hwrite
    apply hwrite.seq ?_
    · rintro _ wal₁ ⟨hbytes₁, hpos₁, hcount₁, hmax₁⟩
      have hlen : i + [slot].length ≤ (overwrite slots i [slot]).length := by
        rw [length_overwrite hi]
        exact le_max_right _ _
      refine (ih hbytes₁ hpos₁ hlen).mono ?_ ?_
      · rintro _ wal₂ ⟨hbytes₂, hpos₂, hcount₂, hmax₂⟩
        refine ⟨?_, ?_, hcount₂.trans hcount₁, hmax₂.trans hmax₁⟩
        · have hall := hfile new.length
          rw [take_length, take_of_length_le (length_cons.le)] at hall
          exact hbytes₂.trans hall
        · rw [hpos₂, add_assoc, ← length_append, singleton_append]
      · rintro _ wal₂ ⟨hfail, hstopped⟩
        refine ⟨hfail, fun h => ?_⟩
        obtain ⟨k, hk, hbytes₂⟩ := hstopped h
        exact ⟨k + 1, Nat.succ_le_succ hk, hbytes₂.trans (hfile k)⟩
    · rintro _ wal₁ ⟨hfail, hkept⟩
      refine ⟨hfail, fun h => ⟨0, zero_le, ?_⟩⟩
      rw [hkept h, hbytes, take_zero, overwrite_nil, add_zero,
        Nat.sub_eq_zero_of_le hi, zero_mul, drop_zero]

end

/-! ### Sweeps -/

section

variable {wal : VersionWal W} {header : Fixed walHeaderSize} {slots : List (Fixed walRecordSize)}
  {rest : Bytes}

def isPendingRaw (chunkIdx : UInt64) (slot : Fixed walRecordSize) : Bool :=
  match slotContent slot with
  | some (some record) => record.chunkIdx = chunkIdx ∧ record.status = .pending
  | _ => false

/-- A slot after a pending record of a chunk in it was committed. -/
def sweepRaw (chunkIdx : UInt64) (slot : Fixed walRecordSize) : Fixed walRecordSize :=
  match slotContent slot with
  | some (some record) =>
    if record.chunkIdx = chunkIdx ∧ record.status = .pending then
      WalRecord.toBytes { record with status := .committed }
    else slot
  | _ => slot

/-- The state after a sweep of the first `n` slots that met no corrupt one. -/
structure Swept (chunkIdx : UInt64) (header : Fixed walHeaderSize)
    (slots : List (Fixed walRecordSize)) (rest : Bytes) (n : ℕ) (found : Bool)
    (wal : VersionWal W) (found' : Bool) (wal' : VersionWal W) : Prop where
  readable : ∀ slot ∈ slots.take n, slotContent slot ≠ none
  found_eq : found' = (found || (slots.take n).any (isPendingRaw chunkIdx))
  bytes_eq : bytes wal'.writer =
    fileBytes header ((slots.take n).map (sweepRaw chunkIdx) ++ slots.drop n) rest
  count_eq : wal'.recordCount = wal.recordCount
  max_eq : wal'.maxRecords = wal.maxRecords

/-- The state after a sweep of the first `n` slots that a corrupt one ended: what stands behind
the last corrupt slot was swept. -/
def SweptBehind (chunkIdx : UInt64) (header : Fixed walHeaderSize)
    (slots : List (Fixed walRecordSize)) (rest : Bytes) (n : ℕ) (wal' : VersionWal W) : Prop :=
  ∃ before bad behind, slots.take n = before ++ bad :: behind ∧ slotContent bad = none ∧
    (∀ slot ∈ behind, slotContent slot ≠ none) ∧
    bytes wal'.writer =
      fileBytes header (before ++ bad :: behind.map (sweepRaw chunkIdx) ++ slots.drop n) rest

/-- A sweep goes on below a slot that was read, and rewritten if it had to be. -/
theorem ensures_sweep_below {chunkIdx : UInt64} {i : ℕ} {found found₁ : Bool}
    {wal₁ : VersionWal W} (hlt : i < slots.length)
    (ih : Ensures
      (Swept chunkIdx header (overwrite slots i [sweepRaw chunkIdx slots[i]]) rest i found₁ wal₁)
      (fun _ wal' => mayFail W ∨
        SweptBehind chunkIdx header (overwrite slots i [sweepRaw chunkIdx slots[i]]) rest i wal')
      (sweep chunkIdx i found₁ wal₁))
    (hfound₁ : found₁ = (found || isPendingRaw chunkIdx slots[i]))
    (hread : slotContent slots[i] ≠ none) (hcount₁ : wal₁.recordCount = wal.recordCount)
    (hmax₁ : wal₁.maxRecords = wal.maxRecords) :
    Ensures (Swept chunkIdx header slots rest (i + 1) found wal)
      (fun _ wal' => mayFail W ∨ SweptBehind chunkIdx header slots rest (i + 1) wal')
      (sweep chunkIdx i found₁ wal₁) := by
  have htake : slots.take (i + 1) = slots.take i ++ [slots[i]] := take_succ_eq_append_getElem hlt
  have hlow := take_overwrite [sweepRaw chunkIdx slots[i]] hlt.le
  have hhigh := drop_overwrite [sweepRaw chunkIdx slots[i]] hlt.le
  rw [length_singleton] at hhigh
  -- A slot among the lower ones or the one just read.
  have hmem {lower : List (Fixed walRecordSize)} (h : ∀ slot ∈ lower, slotContent slot ≠ none) :
      ∀ slot ∈ lower ++ [slots[i]], slotContent slot ≠ none := by
    intro slot hslot
    rcases mem_append.mp hslot with hslot | hslot
    · exact h slot hslot
    · rw [mem_singleton.mp hslot]
      exact hread
  refine ih.mono ?_ ?_
  · rintro found' wal₂ ⟨hreadable, hfound, hbytes₂, hcount, hmax⟩
    rw [hlow] at hreadable hfound hbytes₂
    rw [hhigh] at hbytes₂
    refine ⟨?_, ?_, ?_, hcount.trans hcount₁, hmax.trans hmax₁⟩
    · rw [htake]
      exact hmem hreadable
    · rw [htake, hfound, hfound₁, any_append, any_cons, any_nil, Bool.or_false,
        Bool.or_assoc, Bool.or_comm (isPendingRaw chunkIdx slots[i])]
    · rw [htake, hbytes₂, map_append, append_assoc, map_singleton]
  · rintro _ wal₂ (hfail | ⟨before, bad, behind, hsplit, hbad, hbehind, hbytes₂⟩)
    · exact Or.inl hfail
    · rw [hlow] at hsplit
      rw [hhigh] at hbytes₂
      refine Or.inr ⟨before, bad, behind ++ [slots[i]], ?_, hbad, hmem hbehind, ?_⟩
      · rw [htake, hsplit, append_assoc, cons_append]
      · rw [hbytes₂]
        simp

/-- A sweep rewrites the pending records of a chunk from the last slot down, up to the first
corrupt slot it meets. -/
theorem ensures_sweepRaw {chunkIdx : UInt64} {n : ℕ} {found : Bool}
    (hbytes : bytes wal.writer = fileBytes header slots rest) (hn : n ≤ slots.length) :
    Ensures (Swept chunkIdx header slots rest n found wal)
      (fun _ wal' => mayFail W ∨ SweptBehind chunkIdx header slots rest n wal')
      (sweep chunkIdx n found wal) := by
  induction n generalizing found wal slots with
  | zero => exact ⟨by simp, by simp, by simpa using hbytes, rfl, rfl⟩
  | succ i ih =>
    have hlt : i < slots.length := hn
    have hslot : slots[i]? = some slots[i] := getElem?_eq_getElem hlt
    have hlen : i ≤ (overwrite slots i [sweepRaw chunkIdx slots[i]]).length := by
      rw [length_overwrite hlt.le]
      omega
    apply (ensures_loadRaw hbytes hslot).seq ?_
    · rintro content wal₁ ⟨hcontent, hsame⟩
      have hread : slotContent slots[i] ≠ none := by
        rw [hcontent]
        exact Option.some_ne_none _
      have hkeep (hid : sweepRaw chunkIdx slots[i] = slots[i]) : bytes wal₁.writer =
          fileBytes header (overwrite slots i [sweepRaw chunkIdx slots[i]]) rest := by
        rw [hid, overwrite_getElem hlt]
        exact hsame.bytes_eq.trans hbytes
      cases content with
      | none =>
        apply ensures_sweep_below hlt (ih (hkeep ?_) hlen) ?_ hread hsame.count_eq hsame.max_eq
        · simp [sweepRaw, hcontent]
        · simp [isPendingRaw, hcontent]
      | some record =>
        by_cases hpending : record.chunkIdx = chunkIdx ∧ record.status = .pending
        · simp only [if_pos hpending]
          apply (ensures_storeRaw { record with status := .committed }
            (hsame.bytes_eq.trans hbytes) hlt.le).seq fun _ _ h => Or.inl h.1
          rintro _ wal₂ ⟨hbytes₂, hcount₂, hmax₂⟩
          apply ensures_sweep_below hlt (ih ?_ hlen) ?_ hread (hcount₂.trans hsame.count_eq)
            (hmax₂.trans hsame.max_eq)
          · rw [hbytes₂, Nat.sub_eq_zero_of_le hn]
            simp [sweepRaw, hcontent, if_pos hpending]
          · simp [isPendingRaw, hcontent, hpending]
        · simp only [if_neg hpending]
          apply ensures_sweep_below hlt (ih (hkeep ?_) hlen) ?_ hread hsame.count_eq hsame.max_eq
          · simp [sweepRaw, hcontent, if_neg hpending]
          · simp [isPendingRaw, hcontent, hpending]
    · rintro _ wal₁ ⟨-, hcorrupt, hsame⟩
      have htake : slots.take (i + 1) = slots.take i ++ [slots[i]] :=
        take_succ_eq_append_getElem hlt
      refine Or.inr ⟨slots.take i, slots[i], [], htake, hcorrupt, by simp, ?_⟩
      rw [hsame.bytes_eq, hbytes, map_nil, ← htake, take_append_drop]

end

end VersionWal

end ClawHdf5.Filters
