import ClawHdf5.Agent.Reopen

/-!
# The background writer

An asynchronous store sends its saves, flushes and session ticks to a background writer, which also
flushes on a timer and when the log has grown too long. A flag records whether there is anything to
flush, and a requested flush does nothing and reports success when the flag is off.

The flag is turned off by a save that fails, by a flush on the log's length whether it succeeds or
not, and by a flush on the timer whether it succeeds or not. As long as no save fails while the
flag is on and these flushes succeed, entries that were acknowledged before a flush that reported
success are in the snapshot file.
-/

namespace ClawHdf5.Agent

open Stateful List MemoryCache

/-- The configuration of the writer. The interval is in nanoseconds. -/
structure AsyncConfig where
  flushInterval : ℕ
  flushThreshold : ℕ

/-- What reaches the writer, with the number of I/O steps that succeed in each operation it runs,
or none if all do. -/
inductive Event
  | save (entries : List MemoryEntry) (saves flush : Option ℕ)
  | flushNow (flush : Option ℕ)
  | tickSession (tick : Option ℕ)
  | timer (flush : Option ℕ)
  | shutdown

/-- What the writer answers. -/
inductive Reply
  | saved (result : Except MemoryError (List ℕ))
  | done (result : Except MemoryError Unit)

/-- The error of a request to a writer that has stopped. -/
def channelGone : MemoryError := .io (.other 32)

structure Writer where
  store : Store
  dirty : Bool
  running : Bool

section

variable (env : Env)

/-- Save entries one by one, up to the first that fails. -/
def saveAll : List MemoryEntry → Op (List ℕ)
  | [] => pure []
  | entry :: entries => do
    let idx ← save env entry
    let indices ← saveAll entries
    pure (idx :: indices)

def runOp {α : Type} (x : Op α) (s : Store) (budget : Option ℕ) : Except MemoryError α × Store :=
  match x ⟨s, budget⟩ with
  | .ok a w => (.ok a, w.toStore)
  | .error e w => (.error e, w.toStore)

/-- One turn of the writer's loop. -/
def Writer.step (config : AsyncConfig) (w : Writer) : Event → Writer × Option Reply
  | .save entries saves flush =>
    if !w.running then (w, some (.saved (.error channelGone)))
    else
      let (result, store) := runOp (saveAll env entries) w.store saves
      let dirty := result.isOk
      let reply := some (.saved result)
      if 0 < config.flushThreshold ∧ dirty ∧
          config.flushThreshold ≤ store.mem.walPendingCount then
        -- the result of the flush is dropped
        ({ w with store := (runOp (flushWal env) store flush).2, dirty := false }, reply)
      else ({ w with store, dirty }, reply)
  | .flushNow flush =>
    if !w.running then (w, some (.done (.error channelGone)))
    else if w.dirty then
      let (result, store) := runOp (flushWal env) w.store flush
      ({ w with store, dirty := !result.isOk }, some (.done result))
    else (w, some (.done (.ok ())))
  | .tickSession tick =>
    if !w.running then (w, some (.done (.error channelGone)))
    else
      let (result, store) := runOp (Agent.tickSession env) w.store tick
      ({ w with store, dirty := !result.isOk && w.dirty }, some (.done result))
  | .timer flush =>
    if w.running ∧ 0 < config.flushInterval ∧ w.dirty then
      -- what is looked at is whether the task was joined, not what it returned
      ({ w with store := (runOp (flushWal env) w.store flush).2, dirty := false }, none)
    else (w, none)
  | .shutdown => ({ w with running := false }, none)

end

/-! ### What the operations do to the entries -/

/-- The entries of a cache as they were saved. -/
def MemoryCache.contents (c : MemoryCache) : List MemoryEntry := c.entries.map (·.toMemoryEntry)

/-- Entries are only added to the live cache, and the snapshot file is kept or replaced by one that
has what the live cache had. -/
structure Grows (s s' : Store) : Prop where
  live : s.mem.cache.contents <+: s'.mem.cache.contents
  h5 : s'.disk.h5 = s.disk.h5 ∨
    ∃ f, s'.disk.h5 = some f ∧ s.mem.cache.contents <+: f.cache.contents

variable {env : Env} {s s' s'' : Store}

theorem Grows.refl (s : Store) : Grows s s := ⟨prefix_rfl, .inl rfl⟩

theorem Grows.trans (h : Grows s s') (h' : Grows s' s'') : Grows s s'' where
  live := h.live.trans h'.live
  h5 := by
    rcases h'.h5 with hsame | ⟨f, hf, hlive⟩
    · rw [hsame]
      exact h.h5
    · exact .inr ⟨f, hf, h.live.trans hlive⟩

theorem grows_logged (entry : MemoryEntry) : Grows s (s.logged env entry) := by
  rcases s with ⟨⟨_, _, _, _, wal⟩, _⟩
  cases wal <;> exact ⟨prefix_rfl, .inl rfl⟩

theorem grows_mapCache {g : MemoryCache → MemoryCache}
    (h : s.mem.cache.contents <+: (g s.mem.cache).contents) : Grows s (s.mapCache g) :=
  ⟨h, .inl rfl⟩

theorem grows_written : Grows s s.written := ⟨prefix_rfl, .inr ⟨_, rfl, prefix_rfl⟩⟩

theorem grows_truncated : Grows s (s.truncated env) := by
  rcases s with ⟨⟨_, _, _, _, wal⟩, _⟩
  cases wal <;> exact ⟨prefix_rfl, .inl rfl⟩

theorem grows_flushed : Grows s (s.flushed env) := grows_written.trans grows_truncated

theorem Store.h5_flushed : (s.flushed env).disk.h5 = some s.mem.snapshot := by
  rcases s with ⟨⟨_, _, _, _, wal⟩, _⟩
  cases wal <;> rfl

theorem MemoryCache.contents_push (c : MemoryCache) (entry : MemoryEntry) :
    (c.push env entry).1.contents = c.contents ++ [entry] := by
  simp only [contents, push, map_append]
  rfl

theorem MemoryCache.length_contents (c : MemoryCache) : c.contents.length = c.len := length_map _

theorem grows_applied (entry : MemoryEntry) :
    Grows s (s.applied env entry fun c => (c.push env entry).1) := by
  refine (grows_logged entry).trans (grows_mapCache ?_)
  rw [contents_push]
  exact prefix_append _ _

theorem StopsInFlush.grows {w w' : World} {e : MemoryError} {n : ℕ}
    (h : StopsInFlush w e w' s n) : Grows s w'.toStore := by
  rcases h with h | h
  · rw [h.store]
    exact Grows.refl s
  · rw [h.store]
    exact grows_written

/-- A save adds its entry, and nothing if it fails before it is applied. -/
theorem grows_save (entry : MemoryEntry) (w : World) : Ensures
      (fun idx w' => idx = w.mem.cache.len ∧ Grows w.toStore w'.toStore ∧
        w'.mem.cache.contents = w.mem.cache.contents ++ [entry])
      (fun _ w' => Grows w.toStore w'.toStore) (save env entry w) := by
  have happlied := @grows_applied env w.toStore entry
  refine (save_spec env entry w).mono (fun idx w' hok => ?_) fun e w' hstop => ?_
  · obtain ⟨hidx, n, hafter⟩ := hok
    rw [hafter.store]
    refine ⟨hidx, happlied.trans ?_, ?_⟩
    · unfold Store.settled
      split
      · exact grows_flushed
      · exact Grows.refl _
    · rw [Store.cache_settled, Store.cache_applied, contents_push]
  · rcases hstop with hstop | ⟨_, hstop | hstop⟩
    · rw [hstop.store]
      exact Grows.refl _
    · exact happlied.trans hstop.grows
    · rw [hstop.store]
      exact happlied.trans grows_flushed

/-- Entries saved one by one are at the indices that are returned. -/
theorem grows_saveAll (entries : List MemoryEntry) (w : World) : Ensures
      (fun indices w' => indices = range' w.mem.cache.len entries.length ∧
        Grows w.toStore w'.toStore ∧
        w'.mem.cache.contents = w.mem.cache.contents ++ entries)
      (fun _ w' => Grows w.toStore w'.toStore) (saveAll env entries w) := by
  induction entries generalizing w with
  | nil => exact ⟨rfl, Grows.refl _, (append_nil _).symm⟩
  | cons entry entries ih =>
    apply (grows_save entry w).bind
    rintro idx w₁ ⟨rfl, hgrows, hcontents⟩
    apply (ih w₁).seq fun _ _ h => hgrows.trans h
    rintro indices w' ⟨rfl, hgrows', hcontents'⟩
    have hlen : w₁.mem.cache.len = w.mem.cache.len + 1 := by
      rw [← length_contents, hcontents, length_append, length_contents, length_singleton]
    refine ⟨?_, hgrows.trans hgrows', ?_⟩
    · rw [hlen, length_cons, range'_succ]
    · rw [hcontents', hcontents, append_assoc, singleton_append]

/-- A flush that succeeds has written the live cache. -/
theorem grows_flushWal (w : World) :
    Ensures (fun _ w' => Grows w.toStore w'.toStore ∧ w'.disk.h5 = some w.mem.snapshot)
      (fun _ w' => Grows w.toStore w'.toStore) (flushWal env w) := by
  refine (flushWal_spec env w).mono (fun _ w' hok => ?_) fun e w' hstop => ?_
  · obtain ⟨n, hafter⟩ := hok
    rw [hafter.store]
    exact ⟨grows_flushed, Store.h5_flushed⟩
  · rcases hstop with hstop | hstop
    · exact hstop.grows
    · rw [hstop.store]
      exact grows_flushed

/-- The cache with all activation weights decayed. -/
def MemoryCache.decayed (env : Env) (d : UInt32) (c : MemoryCache) : MemoryCache :=
  { c with entries := c.entries.map fun e =>
      { e with activationWeight := env.decay d e.activationWeight } }

theorem MemoryCache.contents_decayed (d : UInt32) (c : MemoryCache) :
    (c.decayed env d).contents = c.contents := by
  simp only [contents, decayed, map_map]
  rfl

/-- A session tick is a flush of the decayed cache. -/
theorem grows_tickSession (w : World) : Ensures (fun _ w' => Grows w.toStore w'.toStore ∧
        ∃ f, w'.disk.h5 = some f ∧ f.cache.contents = w.mem.cache.contents)
      (fun _ w' => Grows w.toStore w'.toStore) (tickSession env w) := by
  unfold tickSession
  rw [ensures_get_bind]
  apply Ensures.bind ((modifyCache_after (decayed env w.mem.config.decayFactor) w).mono
    (fun _ _ h => h) fun _ _ h => h.elim)
  intro _ w₁ h₁
  have hdecayed : Grows w.toStore w₁.toStore := by
    rw [h₁.store]
    exact grows_mapCache (contents_decayed _ _ ▸ prefix_rfl)
  refine (grows_flushWal w₁).mono (fun _ w' h => ?_) fun _ w' h => hdecayed.trans h
  refine ⟨hdecayed.trans h.1, _, h.2, ?_⟩
  rw [h₁.store]
  exact contents_decayed _ _

/-! ### Runs of the writer -/

/-- A writer, the entries it has acknowledged with their indices, and those of them that had been
acknowledged when it last reported a flush. -/
structure Trace where
  writer : Writer
  acked : List (ℕ × MemoryEntry)
  promised : List (ℕ × MemoryEntry)

variable (env) in
/-- One turn of the writer's loop, seen by its clients. -/
def Trace.step (config : AsyncConfig) (t : Trace) (event : Event) : Trace :=
  let (writer, reply) := t.writer.step env config event
  { writer
    acked := match event, reply with
      | .save entries _ _, some (.saved (.ok indices)) => t.acked ++ indices.zip entries
      | _, _ => t.acked
    promised := match event, reply with
      | .flushNow _, some (.done (.ok _)) => t.acked
      | _, _ => t.promised }

variable (env) in
def Trace.run (config : AsyncConfig) (t : Trace) (events : List Event) : Trace :=
  events.foldl (Trace.step env config) t

def Trace.start (s : Store) : Trace := ⟨⟨s, false, true⟩, [], []⟩

/-- The entries are in a cache, at their indices. -/
def InCache (entries : List (ℕ × MemoryEntry)) (c : MemoryCache) : Prop :=
  ∀ p ∈ entries, c.contents[p.1]? = some p.2

/-- The entries are in the snapshot file, at their indices. -/
def InSnapshot (entries : List (ℕ × MemoryEntry)) (s : Store) : Prop :=
  ∀ p ∈ entries, ∃ f, s.disk.h5 = some f ∧ f.cache.contents[p.1]? = some p.2

variable (env) in
/-- A save does not fail while there is something to flush, and flushes that nobody has requested
succeed. -/
def Event.Allowed (config : AsyncConfig) (w : Writer) : Event → Prop
  | .save entries saves flush =>
    let r := runOp (saveAll env entries) w.store saves
    (w.dirty → r.1.isOk) ∧
      (0 < config.flushThreshold → r.1.isOk →
        config.flushThreshold ≤ r.2.mem.walPendingCount → (runOp (flushWal env) r.2 flush).1.isOk)
  | .timer flush =>
    0 < config.flushInterval → w.dirty → (runOp (flushWal env) w.store flush).1.isOk
  | _ => True

variable (env) in
/-- Every event is allowed when it reaches the writer. -/
def AllAllowed (config : AsyncConfig) : Trace → List Event → Prop
  | _, [] => True
  | t, event :: events =>
    event.Allowed env config t.writer ∧ AllAllowed config (t.step env config event) events

/-- What holds between turns: acknowledged entries are live, and in the snapshot file unless the
flag is on; what was reported as flushed is in the snapshot file. -/
structure Trace.Inv (t : Trace) : Prop where
  live : InCache t.acked t.writer.store.mem.cache
  clean : t.writer.dirty = false → InSnapshot t.acked t.writer.store
  promised_subset : t.promised ⊆ t.acked
  promised : InSnapshot t.promised t.writer.store

variable {config : AsyncConfig} {t : Trace} {entries : List (ℕ × MemoryEntry)}

theorem InCache.mono {c c' : MemoryCache} (h : InCache entries c)
    (hc : c.contents <+: c'.contents) : InCache entries c' := by
  intro p hp
  obtain ⟨rest, hrest⟩ := hc
  have hfound := h p hp
  have hlt := (List.getElem?_eq_some_iff.mp hfound).1
  rw [← hrest, getElem?_append_left hlt, hfound]

theorem InCache.inSnapshot {f : H5File} (h : InCache entries f.cache) (hf : s.disk.h5 = some f) :
    InSnapshot entries s :=
  fun p hp => ⟨f, hf, h p hp⟩

theorem InSnapshot.grows (h : InSnapshot entries s) (hlive : InCache entries s.mem.cache)
    (hgrows : Grows s s') : InSnapshot entries s' := by
  rcases hgrows.h5 with hsame | ⟨f, hf, hcontents⟩
  · intro p hp
    rw [hsame]
    exact h p hp
  · exact (hlive.mono hcontents).inSnapshot hf

/-- The two ways an operation ends. -/
theorem runOp_of_ensures {α : Type} {x : Op α} {budget : Option ℕ} {Q : α → World → Prop}
    {R : MemoryError → World → Prop} (h : Ensures Q R (x ⟨s, budget⟩)) :
    (∃ a w, runOp x s budget = (.ok a, w.toStore) ∧ Q a w) ∨
      ∃ e w, runOp x s budget = (.error e, w.toStore) ∧ R e w := by
  unfold runOp
  cases hx : x ⟨s, budget⟩ with
  | ok a w =>
    rw [hx] at h
    exact .inl ⟨a, w, rfl, h⟩
  | error e w =>
    rw [hx] at h
    exact .inr ⟨e, w, rfl, h⟩

theorem Trace.Inv.promised_live (h : t.Inv) : InCache t.promised t.writer.store.mem.cache :=
  fun p hp => h.live p (h.promised_subset hp)

/-- The store grows and the flag is off only if the acknowledged entries are in the snapshot
file. -/
theorem Trace.Inv.grow (h : t.Inv) {w : Writer} (hgrows : Grows t.writer.store w.store)
    (hclean : w.dirty = false → t.writer.dirty = false ∨ InSnapshot t.acked w.store) :
    Trace.Inv ⟨w, t.acked, t.promised⟩ where
  live := h.live.mono hgrows.live
  clean hdirty := (hclean hdirty).elim (fun hsame => (h.clean hsame).grows h.live hgrows) id
  promised_subset := h.promised_subset
  promised := h.promised.grows h.promised_live hgrows

/-- Saved entries are at the indices behind those that were there. -/
theorem inCache_zip_range' {c c' : MemoryCache} {added : List MemoryEntry}
    (h : c'.contents = c.contents ++ added) :
    InCache ((range' c.len added.length).zip added) c' := by
  intro p hp
  obtain ⟨i, hi⟩ := mem_iff_getElem?.mp hp
  obtain ⟨hindex, hentry⟩ := getElem?_zip_eq_some.mp hi
  have hlt : i < added.length := (List.getElem?_eq_some_iff.mp hentry).1
  have hidx : p.1 = c.contents.length + i := by
    rw [getElem?_range' hlt, Option.some.injEq, one_mul] at hindex
    rw [← hindex, length_contents]
  rw [h, hidx, getElem?_append_right le_self_add, Nat.add_sub_cancel_left, hentry]

/-- A flush that succeeds, behind which the flag is off. -/
theorem Trace.Inv.flushed (h : t.Inv) {flush : Option ℕ}
    (hok : (runOp (flushWal env) t.writer.store flush).1.isOk) :
    Trace.Inv ⟨{ t.writer with
      store := (runOp (flushWal env) t.writer.store flush).2, dirty := false },
      t.acked, t.promised⟩ := by
  rcases runOp_of_ensures (@grows_flushWal env ⟨t.writer.store, flush⟩) with
    ⟨_, w, hrun, hgrows, h5⟩ | ⟨e, w, hrun, _⟩
  · rw [hrun]
    exact h.grow hgrows fun _ => .inr (InCache.inSnapshot (f := t.writer.store.mem.snapshot) h.live
      h5)
  · rw [hrun] at hok
    exact absurd hok Bool.false_ne_true

open Trace

theorem Trace.Inv.step_save (h : t.Inv) {added : List MemoryEntry} {saves flush : Option ℕ}
    (hallowed : (Event.save added saves flush).Allowed env config t.writer) :
    (t.step env config (.save added saves flush)).Inv := by
  obtain ⟨hfail, hthreshold⟩ := hallowed
  cases hrunning : t.writer.running with
  | false =>
    simp only [step, Writer.step, hrunning]
    exact h
  | true =>
    rcases runOp_of_ensures (@grows_saveAll env added ⟨t.writer.store, saves⟩) with
      ⟨indices, w, hrun, rfl, hgrows, hcontents⟩ | ⟨e, w, hrun, hgrows⟩
    · -- the entries are acknowledged and the flag is on
      have hsaved : Trace.Inv ⟨⟨w.toStore, true, true⟩, t.acked ++
          (range' t.writer.store.mem.cache.len added.length).zip added, t.promised⟩ := by
        refine ⟨?_, nofun, fun p hp => mem_append_left _ (h.promised_subset hp),
          h.promised.grows h.promised_live hgrows⟩
        intro p hp
        rcases mem_append.mp hp with hp | hp
        · exact h.live.mono hgrows.live p hp
        · exact inCache_zip_range' hcontents p hp
      rw [hrun] at hthreshold
      simp only [step, Writer.step, hrunning, hrun, Bool.not_true, Bool.false_eq_true, if_false]
      split
      case isTrue hflush => exact hsaved.flushed (hthreshold hflush.1 rfl hflush.2.2)
      case isFalse => exact hsaved
    · -- the flag is turned off, and was off before
      have hclean : t.writer.dirty = false := by
        cases hdirty : t.writer.dirty with
        | false => rfl
        | true =>
          have hok := hfail hdirty
          rw [hrun] at hok
          exact absurd hok Bool.false_ne_true
      have hsaved := @Trace.Inv.grow t h ⟨w.toStore, false, true⟩ hgrows fun _ => .inl hclean
      simp only [step, Writer.step, hrunning, hrun, Bool.not_true, Bool.false_eq_true, if_false]
      split
      case isTrue hflush => exact absurd hflush.2.1 Bool.false_ne_true
      case isFalse => exact hsaved

theorem Trace.Inv.step (h : t.Inv) {event : Event}
    (hallowed : event.Allowed env config t.writer) : (t.step env config event).Inv := by
  cases event with
  | save added saves flush => exact h.step_save hallowed
  | flushNow flush =>
    cases hrunning : t.writer.running with
    | false =>
      simp only [Trace.step, Writer.step, hrunning]
      exact h
    | true =>
      cases hdirty : t.writer.dirty with
      | false =>
        -- nothing is done, and nothing was to be done
        simp only [Trace.step, Writer.step, hrunning, hdirty]
        exact ⟨h.live, h.clean, List.Subset.refl _, h.clean hdirty⟩
      | true =>
        rcases runOp_of_ensures (@grows_flushWal env ⟨t.writer.store, flush⟩) with
          ⟨_, w, hrun, hgrows, h5⟩ | ⟨e, w, hrun, hgrows⟩
        · have hsnapshot := InCache.inSnapshot (f := t.writer.store.mem.snapshot) h.live h5
          simp only [Trace.step, Writer.step, hrunning, hdirty, hrun]
          exact ⟨h.live.mono hgrows.live, fun _ => hsnapshot, List.Subset.refl _, hsnapshot⟩
        · simp only [Trace.step, Writer.step, hrunning, hdirty, hrun, Bool.not_true,
            Bool.false_eq_true, if_false, if_true]
          exact h.grow hgrows nofun
  | tickSession tick =>
    cases hrunning : t.writer.running with
    | false =>
      simp only [Trace.step, Writer.step, hrunning]
      exact h
    | true =>
      rcases runOp_of_ensures (@grows_tickSession env ⟨t.writer.store, tick⟩) with
        ⟨_, w, hrun, hgrows, f, h5, hcontents⟩ | ⟨e, w, hrun, hgrows⟩
      · simp only [Trace.step, Writer.step, hrunning, hrun]
        exact h.grow hgrows fun _ =>
          .inr (InCache.inSnapshot (h.live.mono (hcontents ▸ prefix_rfl)) h5)
      · simp only [Trace.step, Writer.step, hrunning, hrun]
        exact h.grow hgrows fun hdirty => .inl hdirty
  | timer flush =>
    simp only [Trace.step, Writer.step]
    split
    case isTrue hflush => exact h.flushed (hallowed hflush.2.1 hflush.2.2)
    case isFalse => exact h
  | shutdown => exact ⟨h.live, h.clean, h.promised_subset, h.promised⟩

theorem Trace.Inv.run (h : t.Inv) {events : List Event}
    (hallowed : AllAllowed env config t events) : (t.run env config events).Inv := by
  induction events generalizing t with
  | nil => exact h
  | cons event events ih => exact ih (h.step hallowed.1) hallowed.2

theorem Trace.inv_start (s : Store) : (start s).Inv :=
  ⟨nofun, fun _ => nofun, List.Subset.refl _, nofun⟩

/-- As long as every event is allowed, what had been acknowledged when the writer last reported a
flush is in the snapshot file. -/
theorem promised_run {events : List Event} (hallowed : AllAllowed env config (.start s) events) :
    InSnapshot ((Trace.start s).run env config events).promised
      ((Trace.start s).run env config events).writer.store :=
  ((inv_start s).run hallowed).promised

/-! ### A run with failures, and runs that lose entries -/

instance decidableAllowed (config : AsyncConfig) (w : Writer) :
    (event : Event) → Decidable (event.Allowed env config w)
  | .save .. => inferInstanceAs (Decidable (_ ∧ _))
  | .flushNow _ => isTrue trivial
  | .tickSession _ => isTrue trivial
  | .timer _ => inferInstanceAs (Decidable (_ → _ → _))
  | .shutdown => isTrue trivial

instance decidableAsyncAllAllowed (config : AsyncConfig) :
    (t : Trace) → (events : List Event) → Decidable (AllAllowed env config t events)
  | _, [] => isTrue trivial
  | t, event :: events =>
    have := decidableAsyncAllAllowed config (t.step env config event) events
    inferInstanceAs (Decidable (_ ∧ _))

instance decidableInSnapshot (entries : List (ℕ × MemoryEntry)) (s : Store) :
    Decidable (InSnapshot entries s) :=
  decidable_of_iff (∀ p ∈ entries, (s.disk.h5.bind fun f => f.cache.contents[p.1]?) = some p.2)
    (by simp only [InSnapshot, Option.bind_eq_some_iff])

/-- A timer, and a flush when two saves are in the log. -/
def twoPending : AsyncConfig := ⟨5000000000, 2⟩

/-- A save that fails with nothing to flush, a save, a requested flush that fails and one that
succeeds, two saves that are flushed for the length of the log, and a shutdown. -/
def sevenEvents : List Event :=
  [.save [zeroEntry "a" "x"] (some 0) none, .save [zeroEntry "a" "x"] none none, .flushNow (some 1),
    .flushNow none, .save [zeroEntry "b" "y", zeroEntry "c" "z"] none none, .flushNow none,
    .shutdown]

theorem promised_run_sevenEvents :
    ∃ s, create zeroEnv zeroConfig ⟨none, none⟩ = .ok s ∧
      AllAllowed zeroEnv twoPending (.start s) sevenEvents ∧
      ((Trace.start s).run zeroEnv twoPending sevenEvents).promised =
        [(0, zeroEntry "a" "x"), (1, zeroEntry "b" "y"), (2, zeroEntry "c" "z")] ∧
      InSnapshot ((Trace.start s).run zeroEnv twoPending sevenEvents).promised
        ((Trace.start s).run zeroEnv twoPending sevenEvents).writer.store := by
  refine Exists.imp (p := fun s => _ ∧ AllAllowed _ _ _ _ ∧ _)
    (fun s h => ⟨h.1, h.2.1, h.2.2, promised_run h.2.1⟩) ?_
  decide +kernel

/-- After a save that fails, a failed flush for the length of the log or a failed flush on the
timer, a requested flush reports success with an acknowledged entry missing from the snapshot
file. -/
theorem promised_run_lost :
    ∃ s, create zeroEnv zeroConfig ⟨none, none⟩ = .ok s ∧
      ∀ run ∈ [(twoPending, [.save [zeroEntry "a" "x"] none none,
          .save [zeroEntry "b" "y"] (some 0) none, .flushNow none]),
        (⟨0, 1⟩, [.save [zeroEntry "a" "x"] none (some 0), .flushNow none]),
        (twoPending, [.save [zeroEntry "a" "x"] none none, .timer (some 0), .flushNow none])],
      let t := (start s).run zeroEnv run.1 run.2
      t.promised = [(0, zeroEntry "a" "x")] ∧ ¬ InSnapshot t.promised t.writer.store := by
  decide +kernel

end ClawHdf5.Agent
