import ClawHdf5.Agent.Wal
import ClawHdf5.Math.Sha256

/-!
# Crashes of the write-ahead log

A log is appended to, and a crash leaves a prefix of its file, which is then opened and appended to
again, any number of times. A crash inside an entry leaves a torn tail. Reading stops there, and
`WalFile.openWith` appends behind it, so what is appended next is not read back. The pending count
of an opened log is the count of its header, which lags behind the entries.
-/

namespace ClawHdf5.Agent

open Bytes List WalFile
open Sha256 (digestArray)

namespace WalRecovery

variable (sha256 : Bytes → Fixed 32)

/-- An open log and its file, with the appended entries that no crash has cut. -/
structure LogState where
  wal : WalFile
  file : Bytes
  entries : List WalEntry

/-- What happens to a log. A crash leaves the first `n` bytes of its file. -/
inductive WalStep
  | save (entry : MemoryEntry)
  | tombstone (index : ℕ) (timestamp : UInt64)
  | crash (n : ℕ)
  deriving DecidableEq

/-- A new log. -/
def start : LogState := ⟨(WalFile.truncate sha256).1, (WalFile.truncate sha256).2, []⟩

def LogState.append (s : LogState) (entry : WalEntry) (result : WalFile × Bytes) : LogState :=
  ⟨result.1, result.2, s.entries ++ [entry]⟩

/-- One step. After a crash the log at `path` is opened again; the entries that survive are those
that lie wholly in what is left. -/
def step (path : String) (s : LogState) : WalStep → Except MemoryError LogState
  | .save entry => .ok (s.append (.save entry) (s.wal.appendSave sha256 s.file entry))
  | .tombstone index timestamp =>
    .ok (s.append (.tombstone timestamp index)
      (s.wal.appendTombstone sha256 s.file index timestamp))
  | .crash n => do
    let (wal, file) ← WalFile.openWith sha256 false path (some (s.file.take n))
    pure ⟨wal, file, s.entries.take (wholeEntries sha256 .v2 (n - 9) s.entries)⟩

def run (path : String) (s : LogState) (steps : List WalStep) : Except MemoryError LogState :=
  steps.foldlM (step sha256 path) s

/-- The file ends where its last entry does. -/
def LogState.Unbroken (s : LogState) : Prop :=
  s.file.length = 9 + (encodeEntries sha256 .v2 s.entries).length

def LogState.headerCount (s : LogState) : ℕ := (ofLe32 ((s.file.drop 5).take 4)).toNat

/-- The steps that go well. An entry fits its length fields and is appended to a log that is not
torn. A crash leaves the header, and the header's count is the number of entries left. -/
def Allowed (s : LogState) : WalStep → Prop
  | .save entry => (WalEntry.save entry).Fits ∧ s.Unbroken sha256
  | .tombstone index _ => index < 2 ^ 32 ∧ s.Unbroken sha256
  | .crash n => 9 ≤ n ∧ s.headerCount = wholeEntries sha256 .v2 (n - 9) s.entries

/-- Every step of a run is allowed in the state it is taken from. -/
def AllAllowed (path : String) (s : LogState) : List WalStep → Prop
  | [] => True
  | st :: steps => Allowed sha256 s st ∧
      match step sha256 path s st with
      | .ok s' => AllAllowed path s' steps
      | .error _ => True

instance decidableAllowed (s : LogState) : (st : WalStep) → Decidable (Allowed sha256 s st)
  | .save entry => inferInstanceAs (Decidable ((WalEntry.save entry).Fits ∧ _ = _))
  | .tombstone _ _ => inferInstanceAs (Decidable (_ < _ ∧ _ = _))
  | .crash _ => inferInstanceAs (Decidable (_ ≤ _ ∧ _ = _))

instance decidableAllAllowed (path : String) :
    (s : LogState) → (steps : List WalStep) → Decidable (AllAllowed sha256 path s steps)
  | _, [] => isTrue trivial
  | s, st :: steps =>
    have : Decidable (match step sha256 path s st with
        | .ok s' => AllAllowed sha256 path s' steps
        | .error _ => True) :=
      match step sha256 path s st with
      | .ok s' => decidableAllAllowed path s' steps
      | .error _ => isTrue trivial
    inferInstanceAs (Decidable (_ ∧ _))

/-! ### The invariant of a run -/

/-- The file is a header and a prefix of the encoding of some entries, of which those in the prefix
have survived. -/
structure Inv (s : LogState) : Prop where
  version : s.wal.version = .v2
  chainTip : s.wal.chainTip = chainTipOf sha256 .v2 s.entries
  file : ∃ all n, (∀ e ∈ all, WalEntry.Fits e) ∧
    s.file = walHeader .v2 (s.wal.entryCount - UInt32.ofNat s.wal.pendingHeaderSync) ++
      (encodeEntries sha256 .v2 all).take n ∧
    s.entries = all.take (wholeEntries sha256 .v2 n all)

variable {sha256} {path : String} {s s' : LogState}

theorem Inv.fits (h : Inv sha256 s) : ∀ e ∈ s.entries, e.Fits := by
  obtain ⟨all, n, hfits, _, hentries⟩ := h.file
  intro e he
  rw [hentries] at he
  exact hfits e (mem_of_mem_take he)

/-- A log that is not torn is its entries. -/
theorem Inv.holds (h : Inv sha256 s) (hunbroken : s.Unbroken sha256) :
    WalFile.Holds sha256 s.wal s.file s.entries := by
  obtain ⟨all, n, hfits, hfile, hentries⟩ := h.file
  obtain ⟨tail, htake, _⟩ := (framed_nextEntry 0).exists_take_eq (initialChain sha256) n hfits
  have htake' : (encodeEntries sha256 .v2 all).take n =
      encodeEntries sha256 .v2 s.entries ++ tail := by rw [hentries]; exact htake
  rw [htake'] at hfile
  -- the file has no room for a torn tail
  have htail : tail = [] := by
    have hlen := congrArg length hfile
    rw [length_append, length_append, length_walHeader] at hlen
    unfold LogState.Unbroken at hunbroken
    exact length_eq_zero_iff.mp (by omega)
  rw [htail, append_nil] at hfile
  exact ⟨by rw [h.version]; exact hfile, by rw [h.version]; exact h.chainTip⟩

theorem inv_of_holds {wal : WalFile} {file : Bytes} {entries : List WalEntry}
    (h : WalFile.Holds sha256 wal file entries) (hversion : wal.version = .v2)
    (hfits : ∀ e ∈ entries, e.Fits) : Inv sha256 ⟨wal, file, entries⟩ where
  version := hversion
  chainTip := by rw [← hversion]; exact h.chainTip_eq
  file := by
    refine ⟨entries, (encodeEntries sha256 .v2 entries).length, hfits, ?_, ?_⟩
    · rw [take_length, ← hversion]
      exact h.file_eq
    · have hall : wholeEntries sha256 .v2 (encodeEntries sha256 .v2 entries).length entries =
          entries.length := RecordLog.wholeCount_of_length_le _ _ _ (le_refl _)
      rw [hall, take_length]

theorem inv_start : Inv sha256 (start sha256) := inv_of_holds holds_truncate rfl (by simp)

theorem Inv.append (h : Inv sha256 s) (hunbroken : s.Unbroken sha256) {entry : WalEntry}
    (hfits : entry.Fits) :
    Inv sha256 (s.append entry (s.wal.append sha256 s.file entry)) := by
  have hholds := (h.holds hunbroken).append entry
  refine inv_of_holds hholds ?_ ?_
  · rw [version_append, h.version]
  · intro e he
    rcases mem_append.mp he with he | he
    · exact h.fits e he
    · rw [mem_singleton.mp he]
      exact hfits

theorem accepted_v2 : WalVersion.v2.Accepted false := fun h => absurd h (by decide)

theorem headerCount_of_file {count : UInt32} {data : Bytes}
    (h : s.file = walHeader .v2 count ++ data) : s.headerCount = count.toNat := by
  have hsplit : s.file = (walMagic ++ [WalVersion.v2.toByte]) ++ (le32 count ++ data) := by
    rw [h]
    simp [walHeader]
  have hlen : (walMagic ++ [WalVersion.v2.toByte]).length = 5 := rfl
  rw [LogState.headerCount, hsplit, drop_left' hlen, take_left' (length_le32 count), ofLe32_le32]

/-- A crash keeps the entries that lie wholly in what is left, and the header's count. -/
theorem Inv.crash (h : Inv sha256 s) {n : ℕ} (hn : 9 ≤ n) :
    ∃ s', step sha256 path s (.crash n) = .ok s' ∧ Inv sha256 s' ∧
      s'.entries = s.entries.take (wholeEntries sha256 .v2 (n - 9) s.entries) ∧
      s'.wal.pendingCount = s.headerCount := by
  obtain ⟨all, m, hfits, hfile, hentries⟩ := h.file
  generalize hcount : s.wal.entryCount - UInt32.ofNat s.wal.pendingHeaderSync = count at hfile
  have hleft : s.file.take n =
      walHeader .v2 count ++ (encodeEntries sha256 .v2 all).take (min (n - 9) m) := by
    rw [hfile, take_append, take_of_length_le
      (by rw [length_walHeader]; exact hn), length_walHeader, take_take]
  have hsurvive : s.entries.take (wholeEntries sha256 .v2 (n - 9) s.entries) =
      all.take (wholeEntries sha256 .v2 (min (n - 9) m) all) := by
    rw [hentries]
    exact (RecordLog.take_wholeCount_min (initialChain sha256) (n - 9) m all).symm
  have hopen := @openWith_walHeader sha256 .v2 false path accepted_v2 count _ _
    (@parseEntries_take sha256 .v2 all hfits _ (min (n - 9) m))
  refine ⟨_, by rw [step, hleft, hopen]; rfl, ⟨rfl, ?_, all, min (n - 9) m, hfits, ?_, hsurvive⟩,
    rfl, ?_⟩
  · rw [hsurvive]
  · simp
  · rw [headerCount_of_file hfile]
    rfl

theorem Inv.readEntriesWith (h : Inv sha256 s) :
    readEntriesWith sha256 false path (some s.file) = .ok s.entries := by
  obtain ⟨all, n, hfits, hfile, hentries⟩ := h.file
  rw [hfile, readEntriesWith_walHeader accepted_v2, parseEntries_take hfits, hentries]
  rfl

/-- An allowed step keeps the invariant, and a crash leaves the pending count right. -/
theorem Inv.step (h : Inv sha256 s) {st : WalStep} (hallowed : Allowed sha256 s st) :
    ∃ s', step sha256 path s st = .ok s' ∧ Inv sha256 s' ∧
      ∀ n, st = .crash n → s'.wal.pendingCount = s'.entries.length := by
  cases st with
  | save entry => exact ⟨_, rfl, h.append hallowed.2 hallowed.1, fun n hn => nomatch hn⟩
  | tombstone index timestamp =>
    exact ⟨_, rfl, @Inv.append sha256 s h hallowed.2 (.tombstone timestamp index) hallowed.1,
      fun n hn => nomatch hn⟩
  | crash n =>
    obtain ⟨s', hstep, hinv, hentries, hpending⟩ := @Inv.crash sha256 path s h n hallowed.1
    refine ⟨s', hstep, hinv, fun _ _ => ?_⟩
    have hle : wholeEntries sha256 .v2 (n - 9) s.entries ≤ s.entries.length :=
      RecordLog.wholeCount_le _ _ _
    rw [hpending, hallowed.2, hentries, length_take, min_eq_left hle]

theorem Inv.run (h : Inv sha256 s) {steps : List WalStep}
    (hallowed : AllAllowed sha256 path s steps) :
    ∃ s', run sha256 path s steps = .ok s' ∧ Inv sha256 s' ∧
      ∀ n, steps.getLast? = some (.crash n) → s'.wal.pendingCount = s'.entries.length := by
  induction steps generalizing s with
  | nil => exact ⟨s, rfl, h, fun n hn => nomatch hn⟩
  | cons st steps ih =>
    obtain ⟨s₁, hstep, hinv, hpending⟩ := @Inv.step sha256 path s h st hallowed.1
    have hrest : AllAllowed sha256 path s₁ steps := by
      have h := hallowed.2
      rwa [hstep] at h
    obtain ⟨s₂, hrun, hinv₂, hpending₂⟩ := ih hinv hrest
    refine ⟨s₂, ?_, hinv₂, ?_⟩
    · rw [WalRecovery.run, foldlM_cons, hstep]
      exact hrun
    · intro n hlast
      cases steps with
      | nil =>
        obtain rfl : s₁ = s₂ := Except.ok.inj hrun
        exact hpending n (Option.some.inj hlast)
      | cons st' steps => exact hpending₂ n (by rwa [getLast?_cons_cons] at hlast)

/-- A log survives any number of crashes as long as nothing is appended behind a torn tail and each
crash finds the header's count at the number of entries left: reading it gives the entries wholly
left and those appended since, and the pending count after a crash is their number. -/
theorem run_recovers {steps : List WalStep}
    (hallowed : AllAllowed sha256 path (start sha256) steps) :
    ∃ s, run sha256 path (start sha256) steps = .ok s ∧
      WalFile.readEntriesWith sha256 false path (some s.file) = .ok s.entries ∧
      ∀ n, steps.getLast? = some (.crash n) → s.wal.pendingCount = s.entries.length := by
  obtain ⟨s, hrun, hinv, hpending⟩ := inv_start.run hallowed
  exact ⟨s, hrun, hinv.readEntriesWith, hpending⟩

/-- A deletion is appended, cut off with everything behind the header, another one is appended, and
cut inside. -/
def cutTwice : List WalStep := [.tombstone 0 0, .crash 9, .tombstone 1 0, .crash 10]

theorem run_recovers_cutTwice :
    AllAllowed digestArray "mem.h5.wal" (start digestArray) cutTwice ∧
      ∃ s, run digestArray "mem.h5.wal" (start digestArray) cutTwice = .ok s ∧
        WalFile.readEntriesWith digestArray false "mem.h5.wal" (some s.file) = .ok s.entries ∧
        ∀ n, cutTwice.getLast? = some (.crash n) → s.wal.pendingCount = s.entries.length :=
  have h : AllAllowed digestArray "mem.h5.wal" (start digestArray) cutTwice := by decide +kernel
  ⟨h, run_recovers h⟩

/-- A deletion is appended, cut behind its type byte, and another one is appended. -/
def appendBehindTear : List WalStep := [.tombstone 0 0, .crash 10, .tombstone 1 0]

/-- What is appended behind a torn tail is not read back, and a log that is closed after one append
is opened with a pending count of zero. -/
theorem run_appendBehindTear :
    (∃ s, run digestArray "mem.h5.wal" (start digestArray) appendBehindTear = .ok s ∧
      s.entries = [.tombstone 0 1] ∧
      WalFile.readEntriesWith digestArray false "mem.h5.wal" (some s.file) ≠ .ok s.entries) ∧
    ∃ s, run digestArray "mem.h5.wal" (start digestArray) [.tombstone 0 0, .crash 54] = .ok s ∧
      WalFile.readEntriesWith digestArray false "mem.h5.wal" (some s.file) = .ok s.entries ∧
      s.entries.length = 1 ∧ s.wal.pendingCount = 0 := by
  decide +kernel

end WalRecovery

end ClawHdf5.Agent
