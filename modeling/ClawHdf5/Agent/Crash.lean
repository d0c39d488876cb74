import ClawHdf5.Agent.Reopen

/-!
# Crashes of a store

A store is operated on, and an operation may be cut short after any number of its I/O steps, with
the store opened again from the files that are left. The store is then the one before or after the
operation, unless the crash falls between the two steps of a flush while the log has entries, or
between the two flushes of a deletion that compacts.
-/

namespace ClawHdf5.Agent

open Stateful

variable (env : Env)

/-- What happens to a store: an operation, or one that a crash stops after `n` I/O steps. -/
inductive CrashStep
  | op (op : StoreOp)
  | crash (op : StoreOp) (n : ℕ)

/-- The files left by a crash after `n` I/O steps of an operation. If it has fewer steps, the crash
comes after it. -/
def crashedDisk (s : Store) (op : StoreOp) (n : ℕ) : Disk :=
  (finalState (op.run env ⟨s, some n⟩)).disk

def reopenAfter (s : Store) (op : StoreOp) (n : ℕ) : Except MemoryError Store :=
  openInner env false s.mem.config.path (crashedDisk env s op n)

def Store.pending (s : Store) : List WalEntry :=
  match WalFile.readEntriesWith env.sha256 false (walPath s.mem.config.path) s.disk.wal with
  | .ok entries => entries
  | .error _ => []

/-- Every operation of a run is loggable and every crash is safe. -/
def AllSafe (s : Store) : List CrashStep → Prop
  | [] => True
  | .op o :: steps => o.Loggable s ∧ AllSafe (s.perform env (.op o)) steps
  | .crash o n :: steps => o.Loggable s ∧ o.SafeCrash env s (s.pending env) n ∧
      match reopenAfter env s o n with
      | .ok s' => AllSafe s' steps
      | .error _ => True

/-- Every crash of a run is recovered from, with the cache before or after the operation. -/
def AllAtomic (s : Store) : List CrashStep → Prop
  | [] => True
  | .op o :: steps => AllAtomic (s.perform env (.op o)) steps
  | .crash o n :: steps => ∃ s', reopenAfter env s o n = .ok s' ∧
      (s'.mem.cache = s.mem.cache ∨ s'.mem.cache = (s.perform env (.op o)).mem.cache) ∧
      AllAtomic s' steps

variable {env} {s : Store} {f : H5File} {log : List WalEntry}

section

variable (h : InSync env s f log)
include h

theorem InSync.pending : s.pending env = log := by
  obtain ⟨w, file, _, hfile, hholds⟩ := h.wal
  have haccepted : w.version.Accepted false := fun h => absurd h (by decide)
  rw [Store.pending, hfile, hholds.readEntriesWith h.fits haccepted]

/-- The cache an operation leaves when no step fails. -/
theorem InSync.cache_perform {op : StoreOp} (hlog : op.Loggable s) :
    (s.perform env (.op op)).mem.cache = op.live env s.mem.config.compactThreshold s.mem.cache := by
  refine finalState_of_ensures (P := fun w' => w'.mem.cache = _)
    ((@opSpec env f log ⟨s, none⟩ h op hlog).mono (fun _ w' hok => hok.2) fun e w' hstop => ?_)
  rcases hstop with ⟨hsame, hlive⟩ | ⟨n, hbudget, _⟩
  · rw [hsame, hlive]
  · exact nomatch hbudget

/-- A safe crash leaves files that are opened with the cache before or after the operation. -/
theorem InSync.crash {op : StoreOp} {n : ℕ} (hlog : op.Loggable s)
    (hsafe : op.SafeCrash env s log n) :
    Reopens env (crashedDisk env s op n) s.mem.cache ∨
      Reopens env (crashedDisk env s op n) (s.perform env (.op op)).mem.cache := by
  rw [h.cache_perform hlog]
  refine finalState_of_ensures (P := fun w' => Reopens env w'.disk s.mem.cache ∨
      Reopens env w'.disk (op.live env s.mem.config.compactThreshold s.mem.cache))
    ((@opSpec env f log ⟨s, some n⟩ h op hlog).mono (fun _ w' hok => ?_) fun e w' hstop => ?_)
  · obtain ⟨⟨f', log', hsync⟩, hcache⟩ := hok
    exact .inr (.of_store hsync rfl hcache)
  · rcases hstop with ⟨hsame, _⟩ | ⟨m, hbudget, hleaves⟩
    · exact .inl (.of_store h (by rw [hsame]) rfl)
    · obtain rfl : n = m := Option.some.inj hbudget
      exact hleaves hsafe

theorem InSync.allAtomic {steps : List CrashStep} (hsafe : AllSafe env s steps) :
    AllAtomic env s steps := by
  induction steps generalizing s f log with
  | nil => exact trivial
  | cons step steps ih =>
    cases step with
    | op o =>
      obtain ⟨f', log', hsync⟩ := h.perform (r := .op o) hsafe.1
      exact ih hsync hsafe.2
    | crash o n =>
      obtain ⟨hlog, hcrash, hrest⟩ := hsafe
      rw [h.pending] at hcrash
      -- whichever cache is found, the store opened with it is in sync
      have hreopen : ∃ s' f' log', reopenAfter env s o n = .ok s' ∧
          (s'.mem.cache = s.mem.cache ∨ s'.mem.cache = (s.perform env (.op o)).mem.cache) ∧
          InSync env s' f' log' := by
        rcases h.crash hlog hcrash with hbefore | hafter
        · obtain ⟨s', f', log', hopen, hcache, hsync⟩ := hbefore s.mem.config.path
          exact ⟨s', f', log', hopen, .inl hcache, hsync⟩
        · obtain ⟨s', f', log', hopen, hcache, hsync⟩ := hafter s.mem.config.path
          exact ⟨s', f', log', hopen, .inr hcache, hsync⟩
      obtain ⟨s', f', log', hopen, hcache, hsync⟩ := hreopen
      rw [hopen] at hrest
      exact ⟨s', hopen, hcache, ih hsync hrest⟩

end

/-- From its creation on, a store recovers from every safe crash with the cache before or after the
operation that the crash stopped. -/
theorem allAtomic_of_allSafe {config : MemoryConfig} {disk : Disk}
    (hwal : config.walEnabled = true) (hstale : StaleClean env disk.wal)
    (steps : List CrashStep) :
    ∃ s₀, create env config disk = .ok s₀ ∧
      (AllSafe env s₀ steps → AllAtomic env s₀ steps) := by
  obtain ⟨s₀, f, log, hcreate, hsync, _⟩ := create_inSync hwal hstale
  exact ⟨s₀, hcreate, hsync.allAtomic⟩

instance decidableSafeCrash (s : Store) (log : List WalEntry) (n : ℕ) :
    (op : StoreOp) → Decidable (op.SafeCrash env s log n)
  | .save _ => inferInstanceAs (Decidable (_ = _ → (_ → _) ∧ _))
  | .saveBatch _ => inferInstanceAs (Decidable (_ = _ → _ = _))
  | .delete id =>
    have : Decidable (if s.autoCompacts env id then n ≠ 1 ∧ n ≠ 2 else n = 1 → log = []) := by
      split <;> infer_instance
    inferInstanceAs (Decidable (_ = _ → _))
  | .compact => inferInstanceAs (Decidable (_ < _ → _ = _ → _ = _))

instance decidableAllSafe : (s : Store) → (steps : List CrashStep) → Decidable (AllSafe env s steps)
  | _, [] => isTrue trivial
  | s, .op o :: steps =>
    have := decidableAllSafe (s.perform env (.op o)) steps
    inferInstanceAs (Decidable (_ ∧ _))
  | s, .crash o n :: steps =>
    have : Decidable (match reopenAfter env s o n with
        | .ok s' => AllSafe env s' steps
        | .error _ => True) :=
      match reopenAfter env s o n with
      | .ok s' => decidableAllSafe s' steps
      | .error _ => isTrue trivial
    inferInstanceAs (Decidable (_ ∧ _ ∧ _))

/-- Crashes before and behind the log record of a save, behind a batch, and behind a deletion and
the compaction that follows it. -/
def fourCrashes : List CrashStep :=
  [.op (.save (zeroEntry "a" "x")), .crash (.save (zeroEntry "b" "x")) 0,
    .crash (.save (zeroEntry "b" "x")) 1, .crash (.saveBatch [zeroEntry "c" "x"]) 2,
    .crash (.delete 0) 3]

theorem allAtomic_fourCrashes :
    ∃ s₀, create zeroEnv zeroConfig ⟨none, none⟩ = .ok s₀ ∧ AllSafe zeroEnv s₀ fourCrashes ∧
      AllAtomic zeroEnv s₀ fourCrashes := by
  have hsafe : ∀ s₀, create zeroEnv zeroConfig ⟨none, none⟩ = .ok s₀ →
      AllSafe zeroEnv s₀ fourCrashes := by decide +kernel
  obtain ⟨s₀, hcreate, hatomic⟩ := @allAtomic_of_allSafe zeroEnv zeroConfig
    ⟨none, none⟩ rfl (fun _ h => nomatch h) fourCrashes
  exact ⟨s₀, hcreate, hsafe s₀ hcreate, hatomic (hsafe s₀ hcreate)⟩

/-- A batch is saved to a store of one logged entry, and the crash falls between the two steps of
its flush: the logged entry is found twice. A deletion that compacts is stopped between its two
flushes: the tombstoned entry is still there. -/
theorem reopenAfter_unsafe :
    ∃ s₀, create zeroEnv zeroConfig ⟨none, none⟩ = .ok s₀ ∧
      let s := s₀.perform zeroEnv (.op (.save (zeroEntry "a" "x")))
      (s.mem.cache.entries.length = 1 ∧
        (s.perform zeroEnv (.op (.saveBatch [zeroEntry "b" "y"]))).mem.cache.entries.length = 2 ∧
        ∃ s', reopenAfter zeroEnv s (.saveBatch [zeroEntry "b" "y"]) 1 = .ok s' ∧
          s'.mem.cache.entries.map (fun e => e.chunk) = ["a", "b", "a"]) ∧
      ((s.perform zeroEnv (.op (.delete 0))).mem.cache.entries.length = 0 ∧
        ∃ s', reopenAfter zeroEnv s (.delete 0) 2 = .ok s' ∧
          s'.mem.cache.entries.map (fun e => e.tombstone) = [1]) := by
  decide +kernel

end ClawHdf5.Agent
