import ClawHdf5.Agent.StoreSpec
import ClawHdf5.Math.Sha256

/-!
# Reopening a store

Opening a store replays its log over its snapshot. A store is in sync when that gives its live
cache. Saves, batches, deletions and compactions keep a store in sync. An update in place does not,
unless it flushes, since it is logged as a save and replayed as one. A crash between the two steps
of a flush leaves a log of entries that the snapshot has already, and a crash between the two
flushes of a deletion that compacts leaves a store that is neither the one before nor the one after.
-/

namespace ClawHdf5.Agent

open Fallible Stateful List Store Option WalFile

variable (env : Env)
variable {c : MemoryCache} {id : ℕ} {entry : MemoryEntry}

/-! ### Snapshot and log of a store -/

/-- The files of an open store have the snapshot `f` and the log `log`, which the store's handle
continues. -/
structure Tracks (s : Store) (f : H5File) (log : List WalEntry) : Prop where
  h5 : s.disk.h5 = some f
  wal : ∃ w file, s.mem.wal = some w ∧ s.disk.wal = some file ∧ WalFile.Holds env.sha256 w file log
  fits : ∀ e ∈ log, WalEntry.Fits e

/-- Every norm is that of the entry's embedding. -/
def Normed (cache : MemoryCache) : Prop := ∀ e ∈ cache.entries, e.norm = env.computeNorm e.embedding

/-- Replaying the log over the snapshot gives the live cache. -/
structure InSync (s : Store) (f : H5File) (log : List WalEntry) :
    Prop extends Tracks env s f log where
  replay : replayIntoCache env log f.cache = s.mem.cache
  normed : Normed env s.mem.cache

/-- Opening the files gives a store with cache `c`, which is in sync. -/
def Reopens (disk : Disk) (c : MemoryCache) : Prop :=
  ∀ path, ∃ s f log, openInner env false path disk = .ok s ∧ s.mem.cache = c ∧ InSync env s f log

variable {env} {s : Store} {f : H5File} {log : List WalEntry}

/-- Opening the files of a store. -/
theorem Tracks.openInner (h : Tracks env s f log) (path : String) :
    ∃ s', openInner env false path s.disk = .ok s' ∧ Tracks env s' f log ∧
      s'.disk = s.disk ∧ s'.mem.cache = replayIntoCache env log f.cache := by
  obtain ⟨w, file, _, hfile, hholds⟩ := h.wal
  have haccepted : w.version.Accepted false := fun h => absurd h (by decide)
  have hread := hholds.readEntriesWith h.fits haccepted (walPath path)
  obtain ⟨w', hopen, hholds', _⟩ := hholds.openWith h.fits haccepted (walPath path)
  refine ⟨⟨⟨f.config.loaded path, replayIntoCache env log f.cache, f.sessions, f.knowledge,
    some w'⟩, s.disk⟩, ?_, ⟨h.h5, ⟨w', file, rfl, hfile, hholds'⟩, h.fits⟩, rfl, rfl⟩
  have hdisk : s.disk = ⟨some f, some file⟩ := by rw [← h.h5, ← hfile]
  rw [hdisk, Agent.openInner]
  simp only [hread, hopen]
  rfl

theorem Tracks.reopens (h : Tracks env s f log)
    (hnormed : Normed env (replayIntoCache env log f.cache)) :
    Reopens env s.disk (replayIntoCache env log f.cache) := by
  intro path
  obtain ⟨s', hopen, htracks, _, hcache⟩ := h.openInner path
  exact ⟨s', f, log, hopen, hcache, htracks, hcache.symm, hcache ▸ hnormed⟩

theorem InSync.reopens (h : InSync env s f log) : Reopens env s.disk s.mem.cache := by
  have hreopens := h.toTracks.reopens (h.replay ▸ h.normed)
  rwa [h.replay] at hreopens

/-! ### Steps -/

theorem Tracks.logged (h : Tracks env s f log) {e : MemoryEntry} (hfits : (WalEntry.save e).Fits) :
    Tracks env (s.logged env e) f (log ++ [.save e]) := by
  obtain ⟨w, file, hw, hfile, hholds⟩ := h.wal
  unfold Store.logged
  rw [hw]
  refine ⟨h.h5, ⟨_, _, rfl, rfl, ?_⟩, ?_⟩
  · rw [hfile]
    exact hholds.append (.save e)
  · intro x hx
    rcases mem_append.mp hx with hx | hx
    · exact h.fits x hx
    · rw [mem_singleton.mp hx]
      exact hfits

theorem Tracks.mapCache (h : Tracks env s f log) (g : MemoryCache → MemoryCache) :
    Tracks env (s.mapCache g) f log := ⟨h.h5, h.wal, h.fits⟩

theorem Tracks.written (h : Tracks env s f log) : Tracks env s.written s.mem.snapshot log :=
  ⟨rfl, h.wal, h.fits⟩

/-- After a flush the snapshot is the live state and the log is empty, whatever was in it. -/
theorem inSync_flushed (hwal : s.mem.wal.isSome) (hnormed : Normed env s.mem.cache) :
    InSync env (s.flushed env) s.mem.snapshot [] := by
  obtain ⟨w, hw⟩ := isSome_iff_exists.mp hwal
  have hflushed : s.flushed env = ⟨{ s.mem with wal := some (truncate env.sha256).1 },
        ⟨some s.mem.snapshot, some (truncate env.sha256).2⟩⟩ := by
    unfold flushed truncated
    simp only [written, hw]
  rw [hflushed]
  exact ⟨⟨rfl, ⟨_, _, rfl, rfl, holds_truncate⟩, by simp⟩, rfl, hnormed⟩

theorem Tracks.isSome (h : Tracks env s f log) : s.mem.wal.isSome := by
  obtain ⟨w, _, hw, _⟩ := h.wal
  rw [hw]
  rfl

@[simp] theorem Store.cache_flushed : (s.flushed env).mem.cache = s.mem.cache := by
  rcases s with ⟨⟨_, _, _, _, wal⟩, _⟩
  cases wal <;> rfl

@[simp] theorem Store.cache_settled : (s.settled env).mem.cache = s.mem.cache := by
  unfold settled
  split
  · exact cache_flushed
  · rfl

/-! ### Caches -/

theorem normed_push (h : Normed env c) (entry : MemoryEntry) : Normed env (c.push env entry).1 := by
  intro x hx
  rcases mem_append.mp hx with hx | hx
  · exact h x hx
  · rw [mem_singleton.mp hx]
    rfl

theorem normed_pushAll (h : Normed env c) (entries : List MemoryEntry) :
    Normed env (c.pushAll env entries) := by
  induction entries generalizing c with
  | nil => exact h
  | cons entry entries ih => exact ih (normed_push h entry)

theorem normed_update (h : Normed env c) (idx : ℕ) (entry : MemoryEntry) :
    Normed env (c.update env idx entry) := by
  intro x hx
  obtain ⟨i, hi⟩ := mem_iff_getElem?.mp hx
  rw [MemoryCache.update, getElem?_modify] at hi
  obtain ⟨y, hy, rfl⟩ := map_eq_some_iff.mp hi
  split
  · rfl
  · exact h y (mem_of_getElem? hy)

theorem normed_compacted (c : MemoryCache) : Normed env (c.compacted env) := by
  intro x hx
  obtain ⟨y, _, rfl⟩ := mem_map.mp hx
  rfl

theorem marked_of_true (h : (c.markDeleted id).2 = true) :
    ∃ e, c.entries[id]? = some e ∧ e.tombstone = 0 ∧
      c.marked id = { c with entries := c.entries.set id { e with tombstone := 1 } } := by
  unfold MemoryCache.marked
  unfold MemoryCache.markDeleted at h ⊢
  split at h
  · exact absurd h Bool.false_ne_true
  · rename_i e he
    split at h
    · rename_i htombstone
      exact ⟨e, he, htombstone, by simp only [if_pos htombstone]⟩
    · exact absurd h Bool.false_ne_true

theorem normed_marked (h : Normed env c) (hmark : (c.markDeleted id).2 = true) :
    Normed env (c.marked id) := by
  obtain ⟨e, he, _, hmarked⟩ := marked_of_true hmark
  rw [hmarked]
  intro x hx
  rcases mem_or_eq_of_mem_set hx with hx | rfl
  · exact h x hx
  · exact h e (mem_of_getElem? he)

/-- A compaction that removes nothing changes nothing. -/
theorem compacted_of_removed (hnormed : Normed env c) (h : ¬ 0 < c.removed env) :
    c.compacted env = c := by
  have hlen : c.entries.length ≤ (c.entries.filter fun e => e.tombstone == 0).length := by
    simp only [MemoryCache.removed, MemoryCache.compact, length_map] at h
    omega
  have hall : (c.entries.filter fun e => e.tombstone == 0) = c.entries :=
    filter_sublist.eq_of_length_le hlen
  have hrenormed : c.entries.map (MemoryCache.renormed env) = c.entries := by
    conv_rhs => rw [← map_id c.entries]
    refine map_congr_left fun e he => ?_
    rw [MemoryCache.renormed, ← hnormed e he]
    rfl
  simp [MemoryCache.compacted, MemoryCache.compact, hall, hrenormed]

/-- A tombstoned entry is removed by the next compaction. -/
theorem removed_marked_pos (h : (c.markDeleted id).2 = true) : 0 < (c.marked id).removed env := by
  obtain ⟨e, he, _, hmarked⟩ := marked_of_true h
  have hid : id < c.entries.length := lt_of_getElem? he
  have hmem : { e with tombstone := 1 } ∈ (c.marked id).entries := by
    rw [hmarked]
    exact mem_set hid _
  have hlt : ((c.marked id).entries.filter fun e => e.tombstone == 0).length <
      (c.marked id).entries.length :=
    length_filter_lt_length_iff_exists.mpr ⟨_, hmem, by simp⟩
  simp only [MemoryCache.removed, MemoryCache.compact, length_map]
  omega

/-! ### Operations -/

/-- The operations that change memory entries, other than updates in place. -/
inductive StoreOp
  | save (entry : MemoryEntry)
  | saveBatch (entries : List MemoryEntry)
  | delete (id : ℕ)
  | compact

/-- Whether the next save makes the log too long and is followed by a flush. -/
def Store.mergesNext (s : Store) : Bool :=
  s.mem.wal.all fun wal => s.mem.config.walMaxEntries < (wal.entryCount + 1).toNat

theorem Store.needsFlush_applied (hwal : s.mem.wal.isSome) (entry : MemoryEntry)
    (g : MemoryCache → MemoryCache) :
    (s.applied env entry g).mem.needsFlush = s.mergesNext := by
  obtain ⟨w, hw⟩ := isSome_iff_exists.mp hwal
  simp [applied, mapCache, logged, hw, HDF5Memory.needsFlush, mergesNext, WalFile.pendingCount,
    WalFile.appendSave]

namespace StoreOp

variable (env) in
def run : StoreOp → Op Unit
  | save entry => discard (Agent.save env entry)
  | saveBatch entries => discard (Agent.saveBatch env entries)
  | delete id => Agent.delete env id
  | compact => discard (Agent.compact env)

variable (env) in
/-- The live cache after an operation, for a compaction threshold. -/
def live (threshold : UInt32) : StoreOp → MemoryCache → MemoryCache
  | save entry, c => (c.push env entry).1
  | saveBatch entries, c => c.pushAll env entries
  | delete id, c =>
    if (c.markDeleted id).2 then
      if (c.marked id).exceeds env threshold then (c.marked id).compacted env else c.marked id
    else c
  | compact, c => c.compacted env

/-- The operation's log record can be read back, or is merged at once. -/
def Loggable (s : Store) : StoreOp → Prop
  | save entry => (WalEntry.save entry).Fits ∨ s.mergesNext = true
  | _ => True

variable (env) in
/-- A crash after `n` I/O steps is not between the two steps of a flush while there are entries in
the log, not between the two flushes of a deletion, and not behind a log record that cannot be read
back. -/
def SafeCrash (s : Store) (log : List WalEntry) (n : ℕ) : StoreOp → Prop
  | save entry => s.mergesNext = true → (n = 1 → (WalEntry.save entry).Fits) ∧ n ≠ 2
  | saveBatch _ => n = 1 → log = []
  | delete id => (s.mem.cache.markDeleted id).2 = true →
      if s.autoCompacts env id then n ≠ 1 ∧ n ≠ 2 else n = 1 → log = []
  | compact => 0 < s.mem.cache.removed env → n = 1 → log = []

end StoreOp

variable (env) in
/-- Where a crash of `op` in `s` after `n` steps leaves the files `disk`: they are reopened with the
cache before or after the operation if the crash is safe. -/
def CrashLeaves (s : Store) (log : List WalEntry) (op : StoreOp) (n : ℕ) (disk : Disk) : Prop :=
  op.SafeCrash env s log n → Reopens env disk s.mem.cache ∨
    Reopens env disk (op.live env s.mem.config.compactThreshold s.mem.cache)

variable (env) in
/-- What an operation started in sync does. -/
def OpSpec (op : StoreOp) (w : World) (log : List WalEntry) : Prop :=
  Ensures
    (fun _ w' => (∃ f' log', InSync env w'.toStore f' log') ∧
      w'.mem.cache = op.live env w.mem.config.compactThreshold w.mem.cache)
    (fun _ w' => (w'.toStore = w.toStore ∧
        op.live env w.mem.config.compactThreshold w.mem.cache = w.mem.cache) ∨
      ∃ n, w.budget = some n ∧ CrashLeaves env w.toStore log op n w'.disk)
    (op.run env w)

variable {w : World}

theorem InSync.applied_save (h : InSync env s f log) (hfits : (WalEntry.save entry).Fits) :
    InSync env (s.applied env entry fun c => (c.push env entry).1) f (log ++ [.save entry]) := by
  have hcache : (s.logged env entry).mem.cache = s.mem.cache := cache_logged entry
  refine ⟨(h.toTracks.logged hfits).mapCache _, ?_, ?_⟩
  · refine (foldl_append ..).trans ((congrArg (replayIntoCache env _) h.replay).trans ?_)
    simp only [applied, mapCache, hcache]
    rfl
  · simp only [applied, mapCache, hcache]
    exact normed_push h.normed entry

theorem Store.walSteps_of_isSome (h : s.mem.wal.isSome) : s.walSteps = 1 := if_pos h

theorem Store.isSome_applied (h : s.mem.wal.isSome) (entry : MemoryEntry)
    (g : MemoryCache → MemoryCache) : (s.applied env entry g).mem.wal.isSome := by
  obtain ⟨w, hw⟩ := isSome_iff_exists.mp h
  simp [applied, mapCache, logged, hw]

theorem Store.cache_applied (entry : MemoryEntry) (g : MemoryCache → MemoryCache) :
    (s.applied env entry g).mem.cache = g s.mem.cache := by
  simp [applied, mapCache]

theorem InSync.flushed_applied (h : InSync env s f log) {g : MemoryCache → MemoryCache}
    (hnormed : Normed env (g s.mem.cache)) :
    InSync env ((s.applied env entry g).flushed env) (s.applied env entry g).mem.snapshot [] :=
  inSync_flushed (isSome_applied h.toTracks.isSome entry g) (by rw [cache_applied]; exact hnormed)

theorem Reopens.of_store {disk : Disk} (h : InSync env s f log) (hdisk : disk = s.disk)
    (hcache : s.mem.cache = c) : Reopens env disk c :=
  hdisk ▸ hcache ▸ h.reopens

section

variable (h : InSync env w.toStore f log)
include h

theorem save_opSpec (hlog : (StoreOp.save entry).Loggable w.toStore) :
    OpSpec env (.save entry) w log := by
  have hwal := h.toTracks.isSome
  have hpushed := normed_push h.normed entry
  have hneeds := @needsFlush_applied env w.toStore hwal entry fun c => (c.push env entry).1
  refine ensures_map.mpr ((save_spec env entry w).mono (fun _ w' hok => ?_) fun e w' hstop => ?_)
  · obtain ⟨_, n, hafter⟩ := hok
    rw [hafter.store, cache_settled, cache_applied]
    refine ⟨?_, rfl⟩
    rw [settled, hneeds]
    split
    case isTrue => exact ⟨_, _, h.flushed_applied hpushed⟩
    case isFalse hmerges => exact ⟨_, _, h.applied_save (hlog.resolve_right hmerges)⟩
  · refine .inr ?_
    rcases hstop with hstop | ⟨hneeded, (hstop | hstop) | hstop⟩
    · -- before the entry is logged
      exact ⟨_, hstop.budget, fun _ => .inl (.of_store h (by rw [hstop.store]) rfl)⟩
    all_goals
      rw [hneeds] at hneeded
      have hbudget := hstop.budget
      rw [walSteps_of_isSome hwal] at hbudget
      refine ⟨_, hbudget, fun hsafe => .inr ?_⟩
    · -- the entry is logged
      have hfits := (hsafe hneeded).1 rfl
      exact .of_store (h.applied_save hfits) (by rw [hstop.store]) (cache_applied _ _)
    · -- between the two steps of the flush
      exact absurd rfl (hsafe hneeded).2
    · exact .of_store (h.flushed_applied hpushed) (by rw [hstop.store])
        (by rw [cache_flushed, cache_applied]; rfl)

/-- A crash in a flush that follows a change of the cache by `g`, at its start or between its two
steps. -/
theorem InSync.reopens_flush {g : MemoryCache → MemoryCache} (hnormed : Normed env (g w.mem.cache))
    {e : MemoryError} {w' : World} (hstop : StopsInFlush w e w' (w.toStore.mapCache g) 0) :
    ∃ n, w.budget = some n ∧ ((n = 1 → log = []) → Reopens env w'.disk w.mem.cache ∨
      Reopens env w'.disk (g w.mem.cache)) := by
  rcases hstop with hstop | hstop
  · exact ⟨_, hstop.budget, fun _ => .inl (.of_store h (by rw [hstop.store]; rfl) rfl)⟩
  · refine ⟨_, hstop.budget, fun hempty => .inr ?_⟩
    -- with an empty log the snapshot alone is reopened
    have htracks := (h.toTracks.mapCache g).written
    rw [hempty rfl] at htracks
    have hreopens := htracks.reopens hnormed
    rw [hstop.store]
    exact hreopens

theorem saveBatch_opSpec (entries : List MemoryEntry) : OpSpec env (.saveBatch entries) w log := by
  have hpushed := normed_pushAll h.normed entries
  refine ensures_map.mpr
    ((saveBatch_spec env entries w).mono (fun _ w' hok => ?_) fun e w' hstop => ?_)
  · obtain ⟨_, hafter⟩ := hok
    rw [hafter.store, cache_flushed]
    exact ⟨⟨_, _, inSync_flushed (h.toTracks.mapCache _).isSome hpushed⟩, rfl⟩
  · exact .inr (h.reopens_flush hpushed hstop)

theorem compact_opSpec : OpSpec env .compact w log := by
  have hnormed := @normed_compacted env w.mem.cache
  refine ensures_map.mpr ((compact_spec env w).mono (fun _ w' hok => ?_) fun e w' hstop => ?_)
  · obtain ⟨_, n, hafter⟩ := hok
    rw [hafter.store, compacted]
    split
    case isTrue =>
      rw [cache_flushed]
      exact ⟨⟨_, _, inSync_flushed (h.toTracks.mapCache _).isSome hnormed⟩, rfl⟩
    case isFalse hremoved =>
      -- nothing is removed, and nothing is written
      have hsame := compacted_of_removed h.normed hremoved
      refine ⟨⟨f, log, h.toTracks.mapCache _, ?_, hnormed⟩, rfl⟩
      rw [h.replay]
      exact hsame.symm
  · obtain ⟨n, hbudget, hcrash⟩ := h.reopens_flush hnormed hstop.2
    exact .inr ⟨n, hbudget, fun hsafe => hcrash (hsafe hstop.1)⟩

end

theorem InSync.deleted (h : InSync env s f log) (hmark : (s.mem.cache.markDeleted id).2 = true) :
    InSync env (s.deleted env id) (s.mapCache (MemoryCache.marked id)).mem.snapshot [] :=
  inSync_flushed (h.toTracks.mapCache _).isSome (normed_marked h.normed hmark)

theorem Store.cache_deleted (id : ℕ) :
    (s.deleted env id).mem.cache = s.mem.cache.marked id := cache_flushed

theorem delete_opSpec (h : InSync env w.toStore f log) (id : ℕ) :
    OpSpec env (.delete id) w log := by
  unfold OpSpec
  by_cases hmark : (w.mem.cache.markDeleted id).2 = true
  case neg =>
    rw [StoreOp.run, delete_of_not env (Bool.eq_false_iff.mpr hmark)]
    exact .inl ⟨rfl, if_neg hmark⟩
  have hdeleted := h.deleted hmark
  have hremoved := @removed_marked_pos env _ _ hmark
  -- the cache after the deletion, with and without a compaction
  have hlive (b : Bool) (hb : w.toStore.autoCompacts env id = b) :
      (StoreOp.delete id).live env w.mem.config.compactThreshold w.mem.cache =
        if b then (w.mem.cache.marked id).compacted env else w.mem.cache.marked id := by
    rw [← hb]
    exact if_pos hmark
  refine (delete_spec env hmark).mono (fun _ w' hok => ?_) fun e w' hstop => .inr ?_
  · obtain ⟨n, hafter⟩ := hok
    rw [hafter.store, hlive _ rfl]
    split
    case isTrue =>
      rw [compacted, cache_deleted, if_pos hremoved, cache_flushed]
      refine ⟨⟨_, _, inSync_flushed (hdeleted.toTracks.mapCache _).isSome (normed_compacted _)⟩, ?_⟩
      rw [mapCache, cache_deleted]
    case isFalse => exact ⟨⟨_, _, hdeleted⟩, cache_deleted id⟩
  · rcases hstop with (hstop | hstop) | ⟨hauto, _, hstop | hstop⟩
    · exact ⟨_, hstop.budget, fun _ => .inl (.of_store h (by rw [hstop.store]; rfl) rfl)⟩
    · -- between the two steps of the first flush
      refine ⟨_, hstop.budget, fun hsafe => .inr ?_⟩
      have hcond := hsafe hmark
      split at hcond
      case isTrue => exact absurd rfl hcond.1
      case isFalse hauto =>
        have htracks := (h.toTracks.mapCache (MemoryCache.marked id)).written
        rw [hcond rfl] at htracks
        rw [hlive false (Bool.eq_false_iff.mpr hauto), hstop.store]
        exact htracks.reopens (normed_marked h.normed hmark)
    all_goals
      have hbudget := hstop.budget
      rw [flushSteps, walSteps_of_isSome (h.toTracks.mapCache _).isSome] at hbudget
      refine ⟨_, hbudget, fun hsafe => .inr ?_⟩
      have hcond := hsafe hmark
      rw [if_pos hauto] at hcond
    · -- between the two flushes
      exact absurd rfl hcond.2
    · have htracks := (hdeleted.toTracks.mapCache (MemoryCache.compacted env)).written
      rw [hlive true hauto, hstop.store, ← cache_deleted id]
      exact htracks.reopens (normed_compacted _)

/-- An operation started in sync ends in sync, and a safe crash leaves the store before or after
it. -/
theorem opSpec (h : InSync env w.toStore f log) {op : StoreOp} (hlog : op.Loggable w.toStore) :
    OpSpec env op w log := by
  cases op with
  | save entry => exact save_opSpec h hlog
  | saveBatch entries => exact saveBatch_opSpec h entries
  | delete id => exact delete_opSpec h id
  | compact => exact compact_opSpec h

/-! ### Sequences of requests -/

/-- The operations that change memory entries. -/
inductive Request
  | op (op : StoreOp)
  | saveOrUpdate (entry : MemoryEntry)

namespace Request

variable (env) in
def run : Request → Op Unit
  | op o => o.run env
  | saveOrUpdate entry => discard (Agent.saveOrUpdate env entry)

/-- Replaying the request's log record has the effect of the request, or the record is merged at
once. An update in place is replayed as a save. -/
def Loggable (s : Store) : Request → Prop
  | op o => o.Loggable s
  | saveOrUpdate entry =>
    match s.mem.cache.findByTags entry.tags with
    | some _ => s.mergesNext = true
    | none => (StoreOp.save entry).Loggable s

end Request

variable (env) in
/-- The store after a request, when no I/O step fails. -/
def Store.perform (s : Store) (r : Request) : Store := (finalState (r.run env ⟨s, none⟩)).toStore

variable (env) in
def Store.performAll (s : Store) (rs : List Request) : Store := rs.foldl (Store.perform env) s

variable (env) in
/-- Every request is loggable in the store it is made to. -/
def AllLoggable (s : Store) : List Request → Prop
  | [] => True
  | r :: rs => r.Loggable s ∧ AllLoggable (s.perform env r) rs

instance decidableStoreOpLoggable (s : Store) : (op : StoreOp) → Decidable (op.Loggable s)
  | .save _ => inferInstanceAs (Decidable (_ ∨ _))
  | .saveBatch _ => isTrue trivial
  | .delete _ => isTrue trivial
  | .compact => isTrue trivial

instance decidableLoggable (s : Store) : (r : Request) → Decidable (r.Loggable s)
  | .op o => decidableStoreOpLoggable s o
  | .saveOrUpdate entry =>
    match h : s.mem.cache.findByTags entry.tags with
    | some _ => decidable_of_iff (s.mergesNext = true) (by simp only [Request.Loggable, h])
    | none => decidable_of_iff ((StoreOp.save entry).Loggable s)
      (by simp only [Request.Loggable, h])

instance decidableAllLoggable : (s : Store) → (rs : List Request) → Decidable (AllLoggable env s rs)
  | _, [] => isTrue trivial
  | s, r :: rs =>
    have := decidableAllLoggable (s.perform env r) rs
    inferInstanceAs (Decidable (_ ∧ _))

/-- Where no I/O step fails, an operation leaves the store in sync, also when it finds nothing to
delete. -/
theorem OpSpec.inSync {op : StoreOp} (h : OpSpec env op ⟨s, none⟩ log)
    (hsync : InSync env s f log) :
    ∃ f' log', InSync env (finalState (op.run env ⟨s, none⟩)).toStore f' log' := by
  refine finalState_of_ensures (Ensures.mono h (fun _ w' hok => hok.1) fun e w' hstop => ?_ :
      Ensures (fun _ w' => ∃ f' log', InSync env w'.toStore f' log') _ _)
  rcases hstop with ⟨hsame, _⟩ | ⟨n, hbudget, _⟩
  · exact ⟨f, log, by rw [hsame]; exact hsync⟩
  · exact nomatch hbudget

theorem InSync.perform (h : InSync env s f log) {r : Request} (hlog : r.Loggable s) :
    ∃ f' log', InSync env (s.perform env r) f' log' := by
  cases r with
  | op o => exact (@opSpec env f log ⟨s, none⟩ h _ hlog).inSync h
  | saveOrUpdate entry =>
    unfold Store.perform
    cases hfind : s.mem.cache.findByTags entry.tags with
    | none =>
      have hsame : (Request.saveOrUpdate entry).run env ⟨s, none⟩ =
          (StoreOp.save entry).run env ⟨s, none⟩ := by
        have hrun := @saveOrUpdate_of_none env entry ⟨s, none⟩ hfind
        change EStateM.map _ _ _ = EStateM.map _ _ _
        simp only [EStateM.map, hrun]
      have hsave : (StoreOp.save entry).Loggable s := by
        simpa only [Request.Loggable, hfind] using hlog
      rw [hsame]
      exact (@opSpec env f log ⟨s, none⟩ h _ hsave).inSync h
    | some idx =>
      have hmerges : s.mergesNext = true := by simpa only [Request.Loggable, hfind] using hlog
      have hspec := @saveOrUpdate_of_some env entry idx ⟨s, none⟩ hfind
      refine finalState_of_ensures (P := fun w' => ∃ f' log', InSync env w'.toStore f' log')
        (ensures_map.mpr (hspec.mono (fun _ w' hok => ?_) fun e w' hstop => ?_))
      · obtain ⟨_, n, hafter⟩ := hok
        have hneeds := @needsFlush_applied env s h.toTracks.isSome entry
        rw [hafter.store, settled, hneeds, if_pos hmerges]
        exact ⟨_, _, h.flushed_applied (normed_update h.normed idx entry)⟩
      · rcases hstop with hstop | ⟨_, (hstop | hstop) | hstop⟩ <;> exact nomatch hstop.budget

theorem InSync.performAll (h : InSync env s f log) {rs : List Request}
    (hlog : AllLoggable env s rs) : ∃ f' log', InSync env (s.performAll env rs) f' log' := by
  induction rs generalizing s f log with
  | nil => exact ⟨f, log, h⟩
  | cons r rs ih =>
    obtain ⟨f', log', hsync⟩ := h.perform hlog.1
    exact ih hsync hlog.2

/-! ### Creating a store -/

variable (env) in
/-- A left-over log that does no harm to a new store: there is none, or it ends with its last entry
and none of its entries is a save. -/
def StaleClean (file : Option Bytes) : Prop :=
  ∀ bytes, file = some bytes → ∃ version count stale,
    bytes = walHeader version count ++ encodeEntries env.sha256 version stale ∧
      ∀ e ∈ stale, WalEntry.Fits e ∧ ∀ m, e ≠ .save m

theorem replayIntoCache_of_not_save {stale : List WalEntry} (hstale : ∀ e ∈ stale, ∀ m, e ≠ .save m)
    (hempty : c.entries = []) :
    replayIntoCache env stale c = c := by
  induction stale with
  | nil => rfl
  | cons e stale ih =>
    have hrest := ih fun x hx => hstale x (mem_cons_of_mem e hx)
    cases e with
    | save m => exact absurd rfl (hstale _ mem_cons_self m)
    | tombstone timestamp index =>
      have hmark : (c.markDeleted index).1 = c := by
        simp [MemoryCache.markDeleted, hempty]
      rw [replayIntoCache, foldl_cons]
      dsimp only
      rw [hmark]
      exact hrest
    | activationUpdate timestamp => exact hrest

/-- Creating a store opens a log that holds some entries, none of them a save. -/
theorem openWith_of_staleClean {file : Option Bytes} (h : StaleClean env file) (path : String) :
    ∃ w bytes stale, openWith env.sha256 false path file = .ok (w, bytes) ∧
      WalFile.Holds env.sha256 w bytes stale ∧ ∀ e ∈ stale, WalEntry.Fits e ∧ ∀ m, e ≠ .save m := by
  cases file with
  | none => exact ⟨_, _, [], rfl, holds_truncate, by simp⟩
  | some bytes =>
    obtain ⟨version, count, stale, rfl, hstale⟩ := h bytes rfl
    have hholds : WalFile.Holds env.sha256
        ⟨count, 0, version, chainTipOf env.sha256 version stale⟩ _ stale :=
      ⟨rfl, rfl⟩
    have hcount : count - UInt32.ofNat 0 = count := by simp
    simp only [hcount] at hholds
    have haccepted : version.Accepted false := fun h => absurd h (by decide)
    obtain ⟨w, hopen, hw, _⟩ := hholds.openWith (fun e he => (hstale e he).1) haccepted path
    exact ⟨w, _, stale, hopen, hw, hstale⟩

theorem create_inSync {config : MemoryConfig} {disk : Disk} (hwal : config.walEnabled = true)
    (hstale : StaleClean env disk.wal) :
    ∃ s f log, create env config disk = .ok s ∧ InSync env s f log ∧ s.mem.config = config := by
  obtain ⟨w, bytes, stale, hopen, hholds, hnosave⟩ :=
    openWith_of_staleClean hstale (walPath config.path)
  refine ⟨_, ⟨config, MemoryCache.new config.embeddingDim, [], KnowledgeCache.newWithNextId 0⟩,
    stale, by rw [create, if_pos hwal, hopen]; rfl, ?_, rfl⟩
  refine ⟨⟨rfl, ⟨w, bytes, rfl, rfl, hholds⟩, fun e he => (hnosave e he).1⟩, ?_, ?_⟩
  · exact replayIntoCache_of_not_save (fun e he => (hnosave e he).2) rfl
  · intro e he
    exact absurd he (not_mem_nil)

/-- A store that is created where no log with saves was left, and to which only loggable requests
are made, is reopened with its live cache after any of them. -/
theorem reopen_performAll {config : MemoryConfig} {disk : Disk} (hwal : config.walEnabled = true)
    (hstale : StaleClean env disk.wal) (rs : List Request) :
    ∃ s₀, create env config disk = .ok s₀ ∧ (AllLoggable env s₀ rs →
      ∃ s, openInner env false config.path (s₀.performAll env rs).disk = .ok s ∧
        s.mem.cache = (s₀.performAll env rs).mem.cache) := by
  obtain ⟨s₀, f, log, hcreate, hsync, _⟩ := create_inSync hwal hstale
  refine ⟨s₀, hcreate, fun hlog => ?_⟩
  obtain ⟨f', log', hsync'⟩ := hsync.performAll hlog
  obtain ⟨s, _, _, hopen, hcache, _⟩ := hsync'.reopens config.path
  exact ⟨s, hopen, hcache⟩

/-! ### A store of zero vectors -/

/-- Floating point as far as the store below needs it: the norm of zero vectors and a threshold of
0.3. -/
def zeroEnv : Env where
  sha256 := Sha256.digestArray
  computeNorm _ := 0
  exceedsThreshold tombstoned len _ := 3 * len < 10 * tombstoned
  decay _ weight := weight
  toLowercase s := s

def zeroConfig : MemoryConfig where
  path := "mem.h5"
  agentId := "agent"
  embedder := "openai:text-embedding-3-small"
  embeddingDim := 1
  chunkSize := 512
  overlap := 50
  compactThreshold := 0x3e99999a
  decayFactor := 0x3f7ae148
  createdAt := "2026-01-01T00:00:00Z"
  walEnabled := true
  walMaxEntries := 500

/-- A memory with a zero vector. -/
def zeroEntry (chunk tags : String) : MemoryEntry := ⟨chunk, [0], "", 0, "", tags⟩

/-- Three memories under different tags, the first of which is deleted. -/
def threeSaved : List Request :=
  [.op (.save (zeroEntry "a" "x")), .saveOrUpdate (zeroEntry "b" "y"),
    .op (.saveBatch [zeroEntry "c" "x"]), .op (.delete 0), .op .compact]

theorem reopen_threeSaved :
    ∃ s₀, create zeroEnv zeroConfig ⟨none, none⟩ = .ok s₀ ∧ AllLoggable zeroEnv s₀ threeSaved ∧
      ∃ s, openInner zeroEnv false "mem.h5" (s₀.performAll zeroEnv threeSaved).disk = .ok s ∧
        s.mem.cache = (s₀.performAll zeroEnv threeSaved).mem.cache := by
  have hlog : ∀ s₀, create zeroEnv zeroConfig ⟨none, none⟩ = .ok s₀ →
      AllLoggable zeroEnv s₀ threeSaved := by decide +kernel
  obtain ⟨s₀, hcreate, hreopen⟩ := @reopen_performAll zeroEnv zeroConfig
    ⟨none, none⟩ rfl (fun _ h => nomatch h) threeSaved
  exact ⟨s₀, hcreate, hlog s₀ hcreate, hreopen (hlog s₀ hcreate)⟩

/-- An update in place is logged as a save, and replayed as a second entry. A log left by an earlier
store is replayed into a new one. -/
theorem reopen_updated :
    (∃ s₀, create zeroEnv zeroConfig ⟨none, none⟩ = .ok s₀ ∧
      let live := s₀.performAll zeroEnv
        [.saveOrUpdate (zeroEntry "a" "x"), .saveOrUpdate (zeroEntry "b" "x")]
      live.mem.cache.entries.length = 1 ∧
        ∃ s, openInner zeroEnv false "mem.h5" live.disk = .ok s ∧ s.mem.cache.entries.length = 2) ∧
    ∃ s₀, create zeroEnv zeroConfig ⟨none, none⟩ = .ok s₀ ∧
      ∃ s₁, create zeroEnv zeroConfig
          (s₀.performAll zeroEnv [.op (.save (zeroEntry "a" "x"))]).disk = .ok s₁ ∧
        s₁.mem.cache.entries.length = 0 ∧
        ∃ s, openInner zeroEnv false "mem.h5" s₁.disk = .ok s ∧
          s.mem.cache.entries.length = 1 := by
  decide +kernel

end ClawHdf5.Agent
