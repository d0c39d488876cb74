import ClawHdf5.Agent.Reopen
import ClawHdf5.Merkle.Recovery

/-!
# Snapshots and rollbacks of a store

A snapshot copies the snapshot file of a store to another path, and a restore replaces the snapshot
file by such a copy. Neither looks at the log beside the file. What is in the log is missing from a
snapshot, and it is replayed over a restored file.
-/

namespace ClawHdf5.Agent

open Bytes Fallible Stateful Reader Except
open Merkle (ProvenanceJournal ProvenanceRecord RestoreTarget RestoreError selectRestoreRecord)

/-- The files: snapshot files and logs by their paths, and which paths are directories. -/
structure Files where
  h5 : String → Option H5File
  wal : String → Option Bytes
  isDir : String → Bool

namespace Files

def disk (fs : Files) (path : String) : Disk := ⟨fs.h5 path, fs.wal (walPath path)⟩

/-- Copy a snapshot file. A file that is copied onto itself is emptied. -/
def copy (fs : Files) (src dst : String) : Except MemoryError Files := do
  let f ← okOr notFoundError (fs.h5 src)
  pure { fs with h5 := Function.update fs.h5 dst (if src = dst then none else some f) }

def rename (fs : Files) (src dst : String) : Files :=
  if src = dst then fs
  else { fs with h5 := Function.update (Function.update fs.h5 dst (fs.h5 src)) src none }

/-- A path within a directory. -/
def join (dir name : String) : String :=
  if dir.toList.getLastD '/' = '/' then dir ++ name else s!"{dir}/{name}"

/-- Where a snapshot of `src` goes: to `dest`, or to a new file in it if it is a directory. The time
is in seconds. -/
def destFile (fs : Files) (src dest : String) (ts : ℕ) : Except MemoryError String :=
  if fs.isDir dest then
    let name := (splitDir src).2
    if name = [] ∨ name = ['.', '.'] then .error (.io (.invalidInput "source has no filename"))
    else .ok (join dest s!"snapshot_{ts}_{String.ofList name}")
  else .ok dest

end Files

/-- Copy a snapshot file, by way of a temporary file. -/
def snapshotFile (fs : Files) (src dest : String) (ts : ℕ) :
    Except MemoryError (String × Files) := do
  let destFile ← fs.destFile src dest ts
  let tmpPath := withExtension destFile "h5.tmp"
  let fs ← fs.copy src tmpPath
  pure (destFile, fs.rename tmpPath destFile)

def restoreMessage : RestoreError → String
  | .noJournaledRecord version =>
    s!"no journaled record for version {version} (not a valid rollback target)"
  | .noKnownGoodVersion => "no journaled version has a verifying signature"
  | .signatureInvalid version => s!"hybrid signature for version {version} did not verify"
  | .datasetVerificationFailed version _ =>
    s!"restored dataset for version {version} failed verification"
  | .rootMismatch version =>
    s!"restored dataset root does not match the journaled signed root for version {version}"

/-- Replace the snapshot file at `livePath` by a journaled snapshot, after the caller has verified a
copy of it at `tmpPath`. -/
def restoreToVersion (fs : Files) (livePath tmpPath : String) (journal : ProvenanceJournal)
    (target : RestoreTarget) (verify : ProvenanceRecord → Bool)
    (verifyRestored : Files → String → ProvenanceRecord → Except MemoryError Unit) :
    Except MemoryError (UInt64 × Files) := do
  let record ← (selectRestoreRecord journal target verify).mapError
    fun e => .provenance (restoreMessage e)
  reject (fs.isDir record.snapshotRef = true) (.provenance
    s!"snapshot_ref {record.snapshotRef.quote} for version {record.version} is not a regular file")
  let fs ← fs.copy record.snapshotRef tmpPath
  verifyRestored fs tmpPath record
  pure (record.version, fs.rename tmpPath livePath)

/-! ### Logs without entries -/

variable (env : Env)

/-- The log at `path` has no entries, or there is none. -/
def LogEmpty (path : String) (file : Option Bytes) : Prop :=
  WalFile.readEntriesWith env.sha256 false path file = .ok []

instance decidableLogEmpty (path : String) (file : Option Bytes) :
    Decidable (LogEmpty env path file) :=
  decidable_of_iff (∃ entries, WalFile.readEntriesWith env.sha256 false path file = .ok entries ∧
    entries.isEmpty) (by simp [LogEmpty])

variable {env}

/-- A log whose entries can be read can be opened. -/
theorem openWith_of_readEntriesWith {path : String} {bytes : Bytes} {entries : List WalEntry}
    (h : WalFile.readEntriesWith env.sha256 false path (some bytes) = .ok entries) :
    ∃ w, WalFile.openWith env.sha256 false path (some bytes) = .ok (w, bytes) := by
  obtain ⟨⟨header, data⟩, htake, h⟩ := bind_ok_iff.mp h
  obtain ⟨_, hmagic, h⟩ := bind_ok_iff.mp h
  obtain ⟨version, hversion, h⟩ := bind_ok_iff.mp h
  obtain ⟨⟨_, tip⟩, hparse, _⟩ := bind_ok_iff.mp h
  obtain ⟨hlen, hbytes⟩ := take_eq_ok.mp htake
  -- the header read as a whole is the header read field by field
  have hheader : ∃ count, WalFile.readHeader false path bytes = .ok ((version, count), data) := by
    match header, hlen with
    | [m₀, m₁, m₂, m₃, v, c₀, c₁, c₂, c₃], _ =>
      have hsplit : bytes = [m₀, m₁, m₂, m₃] ++ ([v] ++ ([c₀, c₁, c₂, c₃] ++ data)) := hbytes
      refine ⟨ofLe32 [c₀, c₁, c₂, c₃], ?_⟩
      refine bind_of_ok (take_eq_ok.mpr ⟨rfl, hsplit⟩) ?_
      refine bind_of_ok (orFail_eq_ok.mpr ⟨hmagic, rfl⟩) ?_
      refine bind_of_ok (take_eq_ok.mpr ⟨List.length_singleton, rfl⟩) ?_
      exact bind_of_ok (orFail_eq_ok.mpr ⟨hversion, rfl⟩) rfl
  obtain ⟨count, hheader⟩ := hheader
  rw [WalFile.openWith, hheader]
  cases version with
  | v1 => exact ⟨_, rfl⟩
  | v2 =>
    simp only [ok_bind, hparse]
    exact ⟨_, rfl⟩

/-- A store without log entries is opened with the cache of its snapshot file. -/
theorem openInner_of_logEmpty {disk : Disk} {f : H5File} {path : String} (h5 : disk.h5 = some f)
    (hempty : LogEmpty env (walPath path) disk.wal) :
    ∃ s', openInner env false path disk = .ok s' ∧ s'.mem.cache = f.cache := by
  rcases disk with ⟨h5', wal⟩
  obtain rfl : h5' = some f := h5
  cases wal with
  | none => exact ⟨_, rfl, rfl⟩
  | some bytes =>
    obtain ⟨w, hopen⟩ := openWith_of_readEntriesWith hempty
    have hread : WalFile.readEntriesWith env.sha256 false (walPath path) (some bytes) = .ok [] :=
      hempty
    refine ⟨⟨⟨f.config.loaded path, f.cache, f.sessions, f.knowledge, some w⟩,
      ⟨some f, some bytes⟩⟩, ?_, rfl⟩
    rw [openInner]
    simp only [hread, hopen]
    rfl

/-! ### Stores without pending saves -/

variable {s : Store}

namespace Request

variable (env) in
/-- Whether saves are in the log alone after a request, if `pending` says so before it. -/
def pending (s : Store) (pending : Bool) : Request → Bool
  | op (.save _) => !s.mergesNext
  | op (.saveBatch _) => false
  | op (.delete id) => !(s.mem.cache.markDeleted id).2 && pending
  | op .compact => !(0 < s.mem.cache.removed env : Bool) && pending
  | saveOrUpdate _ => !s.mergesNext

end Request

variable (env) in
/-- Whether saves are in the log alone after several requests. -/
def pendingAfter : Store → Bool → List Request → Bool
  | _, pending, [] => pending
  | s, pending, r :: rs => pendingAfter (s.perform env r) (r.pending env s pending) rs

variable (env) in
/-- The store has a log, and unless saves are pending its snapshot file has the live cache. -/
structure Coherent (s : Store) (pending : Bool) : Prop where
  isSome : s.mem.wal.isSome
  normed : Normed env s.mem.cache
  written : pending = false → ∃ f, s.disk.h5 = some f ∧ f.cache = s.mem.cache

theorem coherent_flushed (hwal : s.mem.wal.isSome) (hnormed : Normed env s.mem.cache)
    (pending : Bool) : Coherent env (s.flushed env) pending := by
  have hsync := inSync_flushed hwal hnormed
  exact ⟨hsync.toTracks.isSome, hsync.normed, fun _ => ⟨_, hsync.h5, Store.cache_flushed.symm⟩⟩

section

variable {pending : Bool} (h : Coherent env s pending)
include h

/-- A change that is logged stays in the log unless it is merged. -/
theorem Coherent.settled {entry : MemoryEntry} {g : MemoryCache → MemoryCache}
    (hnormed : Normed env (g s.mem.cache)) :
    Coherent env ((s.applied env entry g).settled env) (!s.mergesNext) := by
  have hwal := @Store.isSome_applied env s h.isSome entry g
  have happlied : Normed env (s.applied env entry g).mem.cache := by
    rw [Store.cache_applied]
    exact hnormed
  rw [Store.settled, Store.needsFlush_applied h.isSome]
  split
  case isTrue => exact coherent_flushed hwal happlied _
  case isFalse hmerges =>
    refine ⟨hwal, happlied, fun hpending => absurd ?_ hmerges⟩
    simpa using hpending

theorem Coherent.compacted :
    Coherent env (s.compacted env) (!(0 < s.mem.cache.removed env : Bool) && pending) := by
  unfold Store.compacted
  split
  case isTrue =>
    exact @coherent_flushed env (s.mapCache (MemoryCache.compacted env)) h.isSome
      (normed_compacted _) _
  case isFalse hremoved =>
    -- nothing is removed, so that the cache is as it was
    have hsame := compacted_of_removed h.normed hremoved
    refine ⟨h.isSome, normed_compacted _, fun hpending => ?_⟩
    obtain ⟨f, hf, hcache⟩ := h.written (by simpa [hremoved] using hpending)
    exact ⟨f, hf, hcache.trans hsame.symm⟩

/-- An operation that logs an entry and changes the cache, when no I/O step fails. -/
theorem Coherent.ensures_settled {entry : MemoryEntry} {g : MemoryCache → MemoryCache}
    (hnormed : Normed env (g s.mem.cache)) {α : Type} {P : α → Prop}
    {r : EStateM.Result MemoryError World α}
    (hspec : Ensures
      (fun a w' => P a ∧ ∃ n, After ⟨s, none⟩ w' ((s.applied env entry g).settled env) n)
      (StopsInSave env entry g ⟨s, none⟩) r) :
    Ensures (fun _ w' => Coherent env w'.toStore (!s.mergesNext))
      (fun _ w' => Coherent env w'.toStore (!s.mergesNext)) r := by
  refine hspec.mono (fun _ w' hok => ?_) ?_
  · obtain ⟨_, n, hafter⟩ := hok
    rw [hafter.store]
    exact h.settled hnormed
  · rintro e w' (hstop | ⟨_, (hstop | hstop) | hstop⟩) <;> exact nomatch hstop.budget

theorem Coherent.perform (r : Request) :
    Coherent env (s.perform env r) (r.pending env s pending) := by
  refine finalState_of_ensures
    (P := fun w' : World => Coherent env w'.toStore (r.pending env s pending)) ?_
  cases r with
  | op o =>
    cases o with
    | save entry =>
      exact ensures_map.mpr
        (h.ensures_settled (normed_push h.normed entry) (save_spec env entry ⟨s, none⟩))
    | saveBatch entries =>
      refine ensures_map.mpr ((saveBatch_spec env entries ⟨s, none⟩).mono (fun _ w' hok => ?_) ?_)
      · rw [hok.2.store]
        exact @coherent_flushed env (s.mapCache _) h.isSome (normed_pushAll h.normed entries) _
      · rintro e w' (hstop | hstop) <;> cases hstop.budget
    | delete id =>
      by_cases hmark : (s.mem.cache.markDeleted id).2 = true
      case neg =>
        have hfalse := Bool.eq_false_iff.mpr hmark
        rw [Request.run, StoreOp.run, @delete_of_not env id ⟨s, none⟩ hfalse]
        simp only [Request.pending, hfalse]
        exact h
      simp only [Request.pending, hmark]
      have hdeleted := @coherent_flushed env (s.mapCache (MemoryCache.marked id)) h.isSome
        (normed_marked h.normed hmark) false
      refine (@delete_spec env id ⟨s, none⟩ hmark).mono (fun _ w' hok => ?_) ?_
      · obtain ⟨n, hafter⟩ := hok
        rw [hafter.store]
        split
        case isTrue =>
          have hcompacted := hdeleted.compacted
          rwa [Bool.and_false] at hcompacted
        case isFalse => exact hdeleted
      · rintro e w' ((hstop | hstop) | ⟨_, _, hstop | hstop⟩) <;> cases hstop.budget
    | compact =>
      refine ensures_map.mpr ((compact_spec env ⟨s, none⟩).mono (fun _ w' hok => ?_) ?_)
      · obtain ⟨_, n, hafter⟩ := hok
        rw [hafter.store]
        exact h.compacted
      · rintro e w' ⟨_, hstop | hstop⟩ <;> cases hstop.budget
  | saveOrUpdate entry =>
    refine ensures_map.mpr ?_
    cases hfind : s.mem.cache.findByTags entry.tags with
    | none =>
      rw [@saveOrUpdate_of_none env entry ⟨s, none⟩ hfind]
      exact h.ensures_settled (normed_push h.normed entry) (save_spec env entry ⟨s, none⟩)
    | some idx =>
      exact h.ensures_settled (normed_update h.normed idx entry)
        (@saveOrUpdate_of_some env entry idx ⟨s, none⟩ hfind)

theorem coherent_performAll (rs : List Request) :
    Coherent env (s.performAll env rs) (pendingAfter env s pending rs) := by
  induction rs generalizing s pending with
  | nil => exact h
  | cons r rs ih => exact ih (h.perform r)

end

theorem create_coherent {config : MemoryConfig} {disk : Disk} (hwal : config.walEnabled = true)
    (h : create env config disk = .ok s) : Coherent env s false := by
  rw [create, if_pos hwal] at h
  obtain ⟨⟨w, file⟩, _, h⟩ := bind_ok_iff.mp h
  obtain rfl := ok.inj h
  exact ⟨rfl, fun e he => absurd he List.not_mem_nil, fun _ => ⟨_, rfl, rfl⟩⟩

/-! ### Snapshots and restores -/

/-- Nothing is at a path, nor at the paths of its temporary file and its log. -/
def Files.Fresh (fs : Files) (path : String) : Prop :=
  fs.h5 path = none ∧ fs.h5 (withExtension path "h5.tmp") = none ∧ fs.wal (walPath path) = none
  deriving Decidable

/-- A copy to an unused path, renamed, is a copy. -/
theorem Files.disk_rename_copy {fs fs₁ : Files} {src tmp : String} (h : fs.copy src tmp = .ok fs₁)
    (htmp : fs.h5 tmp = none) (dst : String) :
    ∃ f, fs.h5 src = some f ∧ (fs₁.rename tmp dst).disk dst = ⟨some f, fs.wal (walPath dst)⟩ := by
  obtain ⟨f, hf, h⟩ := bind_ok_iff.mp h
  obtain rfl := ok.inj h
  rw [okOr_eq_ok] at hf
  have hne : src ≠ tmp := by
    rintro rfl
    exact nomatch hf.symm.trans htmp
  refine ⟨f, hf, ?_⟩
  unfold Files.disk Files.rename
  by_cases hdst : tmp = dst
  · rw [if_pos hdst]
    simp [hdst, hdst ▸ hne]
  · rw [if_neg hdst]
    simp [Function.update_of_ne (Ne.symm hdst), hne]

/-- A snapshot taken when no save is in the log alone is opened with the live cache. A store that is
restored when its log has no entries is opened with the cache of the snapshot it is restored to. -/
theorem rollback_carries_memory :
    (∀ {config : MemoryConfig} {disk : Disk} {s₀ : Store} {rs : List Request} {fs fs' : Files}
      {dest destFile : String} {ts : ℕ}, config.walEnabled = true →
      create env config disk = .ok s₀ →
      let s := s₀.performAll env rs
      fs.disk s.mem.config.path = s.disk →
      snapshotFile fs s.mem.config.path dest ts = .ok (destFile, fs') → fs.Fresh destFile →
      pendingAfter env s₀ false rs = false →
      ∃ s', openInner env false destFile (fs'.disk destFile) = .ok s' ∧
        s'.mem.cache = s.mem.cache) ∧
    ∀ {fs fs' : Files} {livePath tmpPath : String} {journal : ProvenanceJournal}
      {target : RestoreTarget} {verify : ProvenanceRecord → Bool}
      {verifyRestored : Files → String → ProvenanceRecord → Except MemoryError Unit} {v : UInt64},
      fs.h5 tmpPath = none →
      restoreToVersion fs livePath tmpPath journal target verify verifyRestored = .ok (v, fs') →
      LogEmpty env (walPath livePath) (fs.wal (walPath livePath)) →
      ∃ record ∈ journal.records, record.version = v ∧ ∃ f, fs.h5 record.snapshotRef = some f ∧
        ∃ s', openInner env false livePath (fs'.disk livePath) = .ok s' ∧
          s'.mem.cache = f.cache := by
  constructor
  · intro config disk s₀ rs fs fs' dest destFile ts hwal hcreate s hdisk hsnapshot hfresh hpending
    have hcoherent := coherent_performAll (create_coherent hwal hcreate) rs
    obtain ⟨f, hf, hcache⟩ := hcoherent.written hpending
    obtain ⟨destFile', _, h⟩ := bind_ok_iff.mp hsnapshot
    obtain ⟨fs₁, hcopy, h⟩ := bind_ok_iff.mp h
    obtain ⟨rfl, rfl⟩ := Prod.mk.inj (ok.inj h)
    obtain ⟨f', hf', hcopied⟩ := Files.disk_rename_copy hcopy hfresh.2.1 destFile'
    obtain rfl : f' = f := by
      have hsrc : fs.h5 s.mem.config.path = some f := (congrArg Disk.h5 hdisk).trans hf
      exact Option.some.inj (hf'.symm.trans hsrc)
    rw [hcopied, hfresh.2.2, ← hcache]
    exact openInner_of_logEmpty rfl rfl
  · intro fs fs' livePath tmpPath journal target verify verifyRestored v htmp hrestore hempty
    obtain ⟨record, hselect, h⟩ := bind_ok_iff.mp hrestore
    obtain ⟨_, _, h⟩ := bind_ok_iff.mp h
    obtain ⟨fs₁, hcopy, h⟩ := bind_ok_iff.mp h
    obtain ⟨_, _, h⟩ := bind_ok_iff.mp h
    obtain ⟨rfl, rfl⟩ := Prod.mk.inj (ok.inj h)
    have hjournaled := (Merkle.selectRestoreRecord_eq_ok (mapError_eq_ok.mp hselect)).1
    obtain ⟨f, hf, hcopied⟩ := Files.disk_rename_copy hcopy htmp livePath
    refine ⟨record, hjournaled, rfl, f, hf, ?_⟩
    rw [hcopied]
    exact openInner_of_logEmpty rfl hempty

/-! ### A journal with one snapshot -/

namespace Files

def empty : Files := ⟨fun _ => none, fun _ => none, fun _ => false⟩

/-- Put the files of a store in place. -/
def put (fs : Files) (path : String) (disk : Disk) : Files :=
  { fs with
    h5 := Function.update fs.h5 path disk.h5
    wal := Function.update fs.wal (walPath path) disk.wal }

end Files

def snapJournal : ProvenanceJournal where
  records := [⟨1, Merkle.zeroHash, [], 0, "snap.h5"⟩]
  sorted := List.pairwise_singleton _ _
  fits := by decide

/-- A batch is in the snapshot that follows it. After another batch, the restored store is the one
of the snapshot. -/
theorem rollback_carries_memory_batches :
    ∃ s₀, create zeroEnv zeroConfig ⟨none, none⟩ = .ok s₀ ∧
      let s := s₀.performAll zeroEnv [.op (.saveBatch [zeroEntry "a" "x"])]
      ∃ r, snapshotFile (Files.empty.put "mem.h5" s.disk) "mem.h5" "snap.h5" 0 = .ok r ∧
      (∃ s', openInner zeroEnv false r.1 (r.2.disk r.1) = .ok s' ∧
        s'.mem.cache = s.mem.cache) ∧
      let s₂ := s.performAll zeroEnv [.op (.saveBatch [zeroEntry "b" "y"])]
      ∃ q, restoreToVersion (r.2.put "mem.h5" s₂.disk) "mem.h5" "mem.restore.1.0.tmp" snapJournal
          .lastKnownGood (fun _ => true) (fun _ _ _ => .ok ()) = .ok q ∧
        ∃ record ∈ snapJournal.records, record.version = q.1 ∧
          ∃ f, (r.2.put "mem.h5" s₂.disk).h5 record.snapshotRef = some f ∧
          ∃ s', openInner zeroEnv false "mem.h5" (q.2.disk "mem.h5") = .ok s' ∧
            s'.mem.cache = f.cache := by
  have hrun : ∃ s₀, create zeroEnv zeroConfig ⟨none, none⟩ = .ok s₀ ∧
      let s := s₀.performAll zeroEnv [.op (.saveBatch [zeroEntry "a" "x"])]
      let fs := Files.empty.put "mem.h5" s.disk
      (s.mem.config.path = "mem.h5" ∧ fs.disk "mem.h5" = s.disk ∧
        pendingAfter zeroEnv s₀ false [.op (.saveBatch [zeroEntry "a" "x"])] = false) ∧
      ∃ r, snapshotFile fs "mem.h5" "snap.h5" 0 = .ok r ∧
      fs.Fresh r.1 ∧
      let s₂ := s.performAll zeroEnv [.op (.saveBatch [zeroEntry "b" "y"])]
      let fs₂ := r.2.put "mem.h5" s₂.disk
      (fs₂.h5 "mem.restore.1.0.tmp" = none ∧
        LogEmpty zeroEnv "mem.h5.wal" (fs₂.wal "mem.h5.wal")) ∧
      ∃ q, restoreToVersion fs₂ "mem.h5" "mem.restore.1.0.tmp" snapJournal .lastKnownGood
        (fun _ => true) (fun _ _ _ => .ok ()) = .ok q ∧ True := by
    decide +kernel
  obtain ⟨s₀, hcreate, ⟨hpath, hdisk, hpending⟩, r, hsnapshot, hfresh, ⟨htmp, hempty⟩, q,
    hrestore, _⟩ := hrun
  have hcarries := @rollback_carries_memory zeroEnv
  refine ⟨s₀, hcreate, r, hsnapshot, ?_, q, hrestore, hcarries.2 htmp hrestore hempty⟩
  rw [← hpath] at hdisk hsnapshot hfresh
  exact hcarries.1 rfl hcreate hdisk hsnapshot hfresh hpending

/-- An entry that was saved is missing from the snapshot that follows. An entry saved after a
snapshot is in the store that is restored to it. -/
theorem rollback_pending :
    (∃ s₀, create zeroEnv zeroConfig ⟨none, none⟩ = .ok s₀ ∧
      let s := s₀.performAll zeroEnv [.op (.save (zeroEntry "a" "x"))]
      s.mem.cache.entries.length = 1 ∧
      ∃ r, snapshotFile (Files.empty.put "mem.h5" s.disk) "mem.h5" "snap.h5" 0 = .ok r ∧
      ∃ s', openInner zeroEnv false r.1 (r.2.disk r.1) = .ok s' ∧
        s'.mem.cache.entries.length = 0) ∧
    ∃ s₀, create zeroEnv zeroConfig ⟨none, none⟩ = .ok s₀ ∧
      let s := s₀.performAll zeroEnv [.op (.saveBatch [zeroEntry "a" "x"])]
      ∃ r, snapshotFile (Files.empty.put "mem.h5" s.disk) "mem.h5" "snap.h5" 0 = .ok r ∧
      (∃ s', openInner zeroEnv false r.1 (r.2.disk r.1) = .ok s' ∧
        s'.mem.cache.entries.length = 1) ∧
      let s₂ := s.performAll zeroEnv [.op (.save (zeroEntry "b" "y"))]
      ∃ q, restoreToVersion (r.2.put "mem.h5" s₂.disk) "mem.h5" "mem.restore.1.0.tmp" snapJournal
          .lastKnownGood (fun _ => true) (fun _ _ _ => .ok ()) = .ok q ∧
        ∃ s', openInner zeroEnv false "mem.h5" (q.2.disk "mem.h5") = .ok s' ∧
          s'.mem.cache.entries.length = 2 := by
  decide +kernel

end ClawHdf5.Agent
