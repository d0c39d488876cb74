import ClawHdf5.Agent.Store

/-!
# What the operations of a store do

Each operation is described by the store it ends in and by the stores its failed steps leave. The
descriptions are exact, so that results about stores never look into the operations again.
-/

namespace ClawHdf5.Agent

open Stateful MemoryCache Ensures Store

namespace Store

def mapCache (f : MemoryCache → MemoryCache) (s : Store) : Store :=
  ⟨{ s.mem with cache := f s.mem.cache }, s.disk⟩

def written (s : Store) : Store :=
  ⟨s.mem, { s.disk with h5 := some s.mem.snapshot }⟩

variable (env : Env)

def truncated (s : Store) : Store :=
  match s.mem.wal with
  | none => s
  | some _ => ⟨{ s.mem with wal := some (WalFile.truncate env.sha256).1 },
      { s.disk with wal := some (WalFile.truncate env.sha256).2 }⟩

def logged (entry : MemoryEntry) (s : Store) : Store :=
  match s.mem.wal with
  | none => s
  | some wal =>
    ⟨{ s.mem with wal := some (wal.appendSave env.sha256 (s.disk.wal.getD []) entry).1 },
      { s.disk with wal := some (wal.appendSave env.sha256 (s.disk.wal.getD []) entry).2 }⟩

def flushed (s : Store) : Store := s.written.truncated env

/-- The number of steps of a change of the log, if there is one. -/
def walSteps (s : Store) : ℕ := if s.mem.wal.isSome then 1 else 0

variable {env} {s : Store}

@[simp] theorem truncated_truncated : (s.truncated env).truncated env = s.truncated env := by
  rcases s with ⟨⟨_, _, _, _, wal⟩, _⟩
  cases wal <;> rfl

@[simp] theorem truncated_flushed : (s.flushed env).truncated env = s.flushed env :=
  truncated_truncated

@[simp] theorem cache_logged (entry : MemoryEntry) :
    (s.logged env entry).mem.cache = s.mem.cache := by
  unfold logged
  split <;> rfl

end Store

/-- The operation that started in `w` has ended in `s`, by `n` I/O steps. -/
structure After (w w' : World) (s : Store) (n : ℕ) : Prop where
  store : w'.toStore = s
  budget : w.budget = w'.budget.map (n + ·)

/-- The operation that started in `w` has stopped in `s` at an I/O step that failed, after `n`
others. -/
structure Stops (w : World) (e : MemoryError) (w' : World) (s : Store) (n : ℕ) : Prop where
  error : e = ioFailure
  store : w'.toStore = s
  budget : w.budget = some n

variable {w w₁ w' : World} {s s₁ : Store} {e : MemoryError} {n n₁ : ℕ}

theorem After.refl (w : World) : After w w w.toStore 0 where
  store := rfl
  budget := by simp

theorem After.trans (h₁ : After w w₁ s₁ n₁) (h : After w₁ w' s n) : After w w' s (n₁ + n) where
  store := h.store
  budget := by rw [h₁.budget, h.budget]; simp

theorem After.stops (h₁ : After w w₁ s₁ n₁) (h : Stops w₁ e w' s n) : Stops w e w' s (n₁ + n) where
  error := h.error
  store := h.store
  budget := by rw [h₁.budget, h.budget]; rfl

/-! ### I/O steps -/

theorem io_spec (f : Disk → Disk) (w : World) : Ensures (fun _ w' => After w w' ⟨w.mem, f w.disk⟩ 1)
      (fun e w' => Stops w e w' w.toStore 0) (io f w) := by
  unfold io
  cases hbudget : w.budget with
  | none => exact ⟨rfl, hbudget⟩
  | some n =>
    cases n with
    | zero => exact ⟨rfl, rfl, hbudget⟩
    | succ n => exact ⟨rfl, by rw [hbudget, add_comm]; rfl⟩

theorem modifyMem_after (f : HDF5Memory → HDF5Memory) (w : World) :
    Ensures (fun _ w' => After w w' ⟨f w.mem, w.disk⟩ 0) (fun _ _ => False) (modifyMem f w) :=
  ⟨rfl, (After.refl w).budget⟩

theorem modifyCache_after (f : MemoryCache → MemoryCache) (w : World) :
    Ensures (fun _ w' => After w w' (w.toStore.mapCache f) 0) (fun _ _ => False)
      (modifyCache f w) :=
  modifyMem_after (fun m => { m with cache := f m.cache }) w

/-- A step that changes the files, followed by the change of the live store that goes with it. -/
theorem io_modifyMem_spec (f : Disk → Disk) (g : HDF5Memory → HDF5Memory) (w : World) :
    Ensures (fun _ w' => After w w' ⟨g w.mem, f w.disk⟩ 1)
      (fun e w' => Stops w e w' w.toStore 0) ((io f >>= fun _ => modifyMem g) w) := by
  apply (io_spec f w).bind
  intro _ w₁ h₁
  refine (modifyMem_after g w₁).mono (fun _ w' h => ?_) (fun _ _ h => h.elim)
  have hstore := h₁.trans h
  rwa [h₁.store] at hstore

variable (env : Env)

theorem truncateWal_spec (w : World) :
    Ensures (fun _ w' => After w w' (w.toStore.truncated env) w.toStore.walSteps)
      (fun e w' => Stops w e w' w.toStore 0) (truncateWal env w) := by
  unfold truncateWal
  rw [ensures_get_bind]
  cases hwal : w.mem.wal with
  | none =>
    have h := After.refl w
    simp only [truncated, walSteps, hwal]
    exact h
  | some wal =>
    simp only [truncated, walSteps, hwal]
    exact io_modifyMem_spec _ _ w

theorem appendSave_spec (entry : MemoryEntry) (w : World) :
    Ensures (fun _ w' => After w w' (w.toStore.logged env entry) w.toStore.walSteps)
      (fun e w' => Stops w e w' w.toStore 0) (appendSave env entry w) := by
  unfold appendSave
  rw [ensures_get_bind]
  cases hwal : w.mem.wal with
  | none =>
    have h := After.refl w
    simp only [logged, walSteps, hwal]
    exact h
  | some wal =>
    simp only [logged, walSteps, hwal]
    exact io_modifyMem_spec _ _ w

/-! ### Flushes -/

/-- The operation has stopped in a flush of `s`, before it has written or right behind that. -/
def StopsInFlush (w : World) (e : MemoryError) (w' : World) (s : Store) (n : ℕ) :
    Prop :=
  Stops w e w' s n ∨ Stops w e w' s.written (n + 1)

theorem After.stopsInFlush (h₁ : After w w₁ s₁ n₁) (h : StopsInFlush w₁ e w' s n) :
    StopsInFlush w e w' s (n₁ + n) := by
  rcases h with h | h
  · exact .inl (h₁.stops h)
  · exact .inr (by rw [add_assoc]; exact h₁.stops h)

def Store.flushSteps (s : Store) : ℕ := 1 + s.walSteps

/-- A flush writes the live state and empties the log. -/
theorem flush_spec (w : World) :
    Ensures (fun _ w' => After w w' (w.toStore.flushed env) w.toStore.flushSteps)
      (fun e w' => StopsInFlush w e w' w.toStore 0) (flush env w) := by
  apply (io_spec (fun disk => { disk with h5 := some w.mem.snapshot }) w).seq fun _ _ h => Or.inl h
  intro _ w₁ h₁
  refine (truncateWal_spec env w₁).mono (fun _ w' h => ?_) (fun e w' h => Or.inr ?_)
  · rw [h₁.store] at h
    exact h₁.trans h
  · rw [h₁.store] at h
    exact h₁.stops h

/-- A merge of the log: a flush, behind which the log is emptied once more. -/
theorem flushWal_spec (w : World) : Ensures (fun _ w' => ∃ n, After w w' (w.toStore.flushed env) n)
      (fun e w' => StopsInFlush w e w' w.toStore 0 ∨
        Stops w e w' (w.toStore.flushed env) w.toStore.flushSteps)
      (flushWal env w) := by
  apply (flush_spec env w).seq fun _ _ h => Or.inl h
  intro _ w₁ h₁
  refine (truncateWal_spec env w₁).mono (fun _ w' h => ?_) (fun e w' h => Or.inr ?_)
  · rw [h₁.store, truncated_flushed] at h
    exact ⟨_, h₁.trans h⟩
  · rw [h₁.store] at h
    have hstops := h₁.stops h
    rwa [add_zero] at hstops

/-- The store after a save has been logged and applied, flushed where needed. -/
def Store.settled (s : Store) : Store := if s.mem.needsFlush then s.flushed env else s

/-- The operation has stopped in the flush that follows a save. -/
def StopsSettling (w : World) (e : MemoryError) (w' : World) (s : Store) (n : ℕ) :
    Prop :=
  s.mem.needsFlush = true ∧
    (StopsInFlush w e w' s n ∨ Stops w e w' (s.flushed env) (n + s.flushSteps))

variable {env} in
theorem After.stopsSettling (h₁ : After w w₁ s₁ n₁) (h : StopsSettling env w₁ e w' s n) :
    StopsSettling env w e w' s (n₁ + n) := by
  refine ⟨h.1, h.2.imp h₁.stopsInFlush fun h => ?_⟩
  rw [add_assoc]
  exact h₁.stops h

theorem flushIfNeeded_spec (w : World) :
    Ensures (fun _ w' => ∃ n, After w w' (w.toStore.settled env) n)
      (fun e w' => StopsSettling env w e w' w.toStore 0) (flushIfNeeded env w) := by
  unfold flushIfNeeded
  rw [ensures_get_bind]
  unfold settled
  split
  case isTrue hneeds =>
    refine (flushWal_spec env w).mono (fun _ _ h => h) fun _ _ h => ⟨hneeds, ?_⟩
    rwa [zero_add]
  case isFalse => exact ⟨0, After.refl w⟩

/-! ### Saves -/

/-- The store with an entry logged and its cache changed. -/
def Store.applied (entry : MemoryEntry) (f : MemoryCache → MemoryCache) (s : Store) : Store :=
  (s.logged env entry).mapCache f

/-- How an operation that logs an entry, changes the cache by `f` and flushes may stop. -/
def StopsInSave (entry : MemoryEntry) (f : MemoryCache → MemoryCache) (w : World) (e : MemoryError)
    (w' : World) : Prop :=
  Stops w e w' w.toStore 0 ∨
    StopsSettling env w e w' (w.toStore.applied env entry f) w.toStore.walSteps

/-- Logging an entry, changing the cache and flushing, with a value read off the cache on the
way. -/
theorem logAndApply_spec {α : Type} (entry : MemoryEntry) (f : MemoryCache → MemoryCache)
    (value : MemoryCache → α) (w : World) :
    Ensures (fun a w' => a = value w.mem.cache ∧
        ∃ n, After w w' ((w.toStore.applied env entry f).settled env) n)
      (StopsInSave env entry f w)
      ((do
        appendSave env entry
        let w ← get
        modifyCache f
        flushIfNeeded env
        pure (value w.mem.cache) : Op α) w) := by
  apply (appendSave_spec env entry w).seq fun _ _ h => Or.inl h
  intro _ w₁ h₁
  rw [ensures_get_bind]
  apply (modifyCache_after f w₁).seq fun _ _ h => h.elim
  intro _ w₂ h₂
  have h := h₁.trans h₂
  have hcache : w₁.mem.cache = w.mem.cache := by rw [h₁.store, cache_logged]
  rw [h₁.store] at h
  apply (flushIfNeeded_spec env w₂).seq fun e w' hstop => ?_
  · rintro _ w' ⟨n, hafter⟩
    rw [h.store] at hafter
    exact ⟨by rw [hcache], _, h.trans hafter⟩
  · rw [h.store] at hstop
    have hstops := h.stopsSettling hstop
    exact .inr hstops

theorem save_spec (entry : MemoryEntry) (w : World) : Ensures
      (fun idx w' => idx = w.mem.cache.len ∧ ∃ n, After w w'
        ((w.toStore.applied env entry fun cache => (cache.push env entry).1).settled env) n)
      (StopsInSave env entry (fun cache => (cache.push env entry).1) w) (save env entry w) :=
  logAndApply_spec env entry (fun cache => (cache.push env entry).1)
    (fun cache => (cache.push env entry).2) w

theorem saveOrUpdate_of_some {entry : MemoryEntry} {idx : ℕ} {w : World}
    (h : w.mem.cache.findByTags entry.tags = some idx) :
    Ensures (fun i w' => i = idx ∧ ∃ n, After w w'
        ((w.toStore.applied env entry fun cache => cache.update env idx entry).settled env) n)
      (StopsInSave env entry (fun cache => cache.update env idx entry) w)
      (saveOrUpdate env entry w) := by
  unfold saveOrUpdate
  rw [ensures_get_bind, h]
  exact logAndApply_spec env entry (fun cache => cache.update env idx entry) (fun _ => idx) w

theorem saveOrUpdate_of_none {entry : MemoryEntry} {w : World}
    (h : w.mem.cache.findByTags entry.tags = none) :
    saveOrUpdate env entry w = save env entry w := by
  have hget (f : World → Op ℕ) : (get >>= f) w = f w w := rfl
  rw [saveOrUpdate, hget, h]

def MemoryCache.pushAll (entries : List MemoryEntry) (cache : MemoryCache) : MemoryCache :=
  entries.foldl (fun cache entry => (cache.push env entry).1) cache

theorem pushAll_after (entries : List MemoryEntry) (w : World) : Ensures
      (fun indices w' => indices = List.range' w.mem.cache.len entries.length ∧
        After w w' (w.toStore.mapCache (MemoryCache.pushAll env entries)) 0)
      (fun _ _ => False) (pushAll env entries w) := by
  induction entries generalizing w with
  | nil => exact ⟨rfl, After.refl w⟩
  | cons entry entries ih =>
    apply bind (P := fun idx w₁ => idx = w.mem.cache.len ∧
      After w w₁ (w.toStore.mapCache fun cache => (cache.push env entry).1) 0)
    · exact ⟨rfl, rfl, (After.refl w).budget⟩
    · rintro _ w₁ ⟨rfl, h₁⟩
      apply (ih w₁).bind
      rintro _ w' ⟨rfl, h⟩
      rw [h₁.store] at h
      refine ⟨?_, h₁.trans h⟩
      have hlen : w₁.mem.cache.len = w.mem.cache.len + 1 := by
        rw [h₁.store]
        simp [mapCache, push, len]
      rw [hlen, List.length_cons, List.range'_succ]

theorem saveBatch_spec (entries : List MemoryEntry) (w : World) : Ensures
      (fun indices w' => indices = List.range' w.mem.cache.len entries.length ∧
        After w w' ((w.toStore.mapCache (MemoryCache.pushAll env entries)).flushed env)
          (w.toStore.mapCache (MemoryCache.pushAll env entries)).flushSteps)
      (fun e w' => StopsInFlush w e w' (w.toStore.mapCache (MemoryCache.pushAll env entries)) 0)
      (saveBatch env entries w) := by
  apply (pushAll_after env entries w).seq fun _ _ h => h.elim
  rintro _ w₁ ⟨rfl, h₁⟩
  apply (flush_spec env w₁).seq fun e w' h => ?_
  · intro _ w' h
    rw [h₁.store] at h
    have hafter := h₁.trans h
    rw [zero_add] at hafter
    exact ⟨rfl, hafter⟩
  · rw [h₁.store] at h
    exact h₁.stopsInFlush h

/-! ### Compaction and deletion -/

/-- The cache without its tombstoned entries. -/
def MemoryCache.compacted (cache : MemoryCache) : MemoryCache := (cache.compact env).1

/-- The number of entries a compaction removes. -/
def MemoryCache.removed (cache : MemoryCache) : ℕ := (cache.compact env).2.1

def Store.compacted (s : Store) : Store :=
  if 0 < s.mem.cache.removed env then (s.mapCache (MemoryCache.compacted env)).flushed env
  else s.mapCache (MemoryCache.compacted env)

theorem compact_spec (w : World) : Ensures (fun n w' => n = w.mem.cache.removed env ∧
        ∃ n, After w w' (w.toStore.compacted env) n)
      (fun e w' => 0 < w.mem.cache.removed env ∧
        StopsInFlush w e w' (w.toStore.mapCache (compacted env)) 0)
      (compact env w) := by
  unfold compact
  rw [ensures_get_bind]
  apply (modifyCache_after _ w).seq fun _ _ h => h.elim
  intro _ w₁ h₁
  have hstore : w₁.toStore = w.toStore.mapCache (compacted env) := h₁.store
  change Ensures _ _ ((if 0 < w.mem.cache.removed env then (do
      flush env
      pure (w.mem.cache.removed env))
    else pure (w.mem.cache.removed env) : Op ℕ) w₁)
  unfold Store.compacted
  by_cases hremoved : 0 < w.mem.cache.removed env
  · simp only [if_pos hremoved]
    apply (flush_spec env w₁).seq fun e w' h => ?_
    · intro _ w' h
      rw [hstore] at h
      exact ⟨rfl, _, h₁.trans h⟩
    · rw [hstore] at h
      exact ⟨hremoved, h₁.stopsInFlush h⟩
  · simp only [if_neg hremoved]
    exact ⟨rfl, 0, h₁⟩

def MemoryCache.marked (id : ℕ) (cache : MemoryCache) : MemoryCache := (cache.markDeleted id).1

/-- Whether the store is compacted after entry `id` is tombstoned. -/
def Store.autoCompacts (id : ℕ) (s : Store) : Bool :=
  (s.mem.cache.marked id).exceeds env s.mem.config.compactThreshold

def Store.deleted (id : ℕ) (s : Store) : Store := (s.mapCache (MemoryCache.marked id)).flushed env

theorem delete_of_not {id : ℕ} {w : World} (h : (w.mem.cache.markDeleted id).2 = false) :
    delete env id w = .error (.notFound s!"entry {id} not found or already deleted") w := by
  have hbind : delete env id w = (if (w.mem.cache.markDeleted id).2 then (do
          modifyCache fun _ => (w.mem.cache.markDeleted id).1
          flush env
          if (w.mem.cache.markDeleted id).1.exceeds env w.mem.config.compactThreshold then
            let _ ← compact env
        : Op Unit)
      else throw (.notFound s!"entry {id} not found or already deleted")) w := rfl
  rw [hbind, h]
  rfl

theorem delete_spec {id : ℕ} {w : World} (hmark : (w.mem.cache.markDeleted id).2 = true) : Ensures
      (fun _ w' => ∃ n, After w w'
        (if w.toStore.autoCompacts env id then (w.toStore.deleted env id).compacted env
        else w.toStore.deleted env id) n)
      (fun e w' => StopsInFlush w e w' (w.toStore.mapCache (marked id)) 0 ∨
        w.toStore.autoCompacts env id = true ∧
          0 < (w.toStore.deleted env id).mem.cache.removed env ∧
          StopsInFlush w e w' ((w.toStore.deleted env id).mapCache (compacted env))
            (w.toStore.mapCache (marked id)).flushSteps)
      (delete env id w) := by
  unfold delete
  rw [ensures_get_bind]
  simp only [hmark]
  apply (modifyCache_after _ w).seq fun _ _ h => h.elim
  intro _ w₁ h₁
  have hstore : w₁.toStore = w.toStore.mapCache (marked id) := h₁.store
  apply (flush_spec env w₁).seq fun e w' h => Or.inl ?_
  · intro _ w₂ h₂
    rw [hstore] at h₂
    have h := h₁.trans h₂
    by_cases hauto : w.toStore.autoCompacts env id = true
    · have hif : (w.mem.cache.markDeleted id).1.exceeds env w.mem.config.compactThreshold = true :=
        hauto
      rw [if_pos hif, if_pos hauto]
      apply (compact_spec env w₂).seq fun e w' hstop => ?_
      · rintro _ w' ⟨_, n, hafter⟩
        rw [h.store] at hafter
        exact ⟨_, h.trans hafter⟩
      · have hremoved := hstop.1
        have hflush := h.stopsInFlush hstop.2
        rw [h.store, zero_add] at hflush
        rw [h.store] at hremoved
        exact .inr ⟨hauto, hremoved, hflush⟩
    · have hif : ¬ (w.mem.cache.markDeleted id).1.exceeds env w.mem.config.compactThreshold =
          true :=
        hauto
      rw [if_neg hif, if_neg hauto]
      exact ⟨_, h⟩
  · rw [hstore] at h
    exact h₁.stopsInFlush h

end ClawHdf5.Agent
