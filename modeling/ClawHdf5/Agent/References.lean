import ClawHdf5.Agent.Reopen
import ClawHdf5.Math.Renumber

/-!
# References to memory entries

Entities of the knowledge graph and sessions hold indices of memory entries. Compaction removes
tombstoned entries and moves those behind them, and computes where each one goes. Nothing uses
that: the indices stay as they are.
-/

namespace ClawHdf5.Agent

open Stateful Renumber List MemoryCache Store

def alive (e : CacheEntry) : Bool := e.tombstone == 0

def MemoryCache.countActive (c : MemoryCache) : ℕ := (c.entries.filter alive).length

variable {env : Env}

/-- The index map has the rank of each active entry, where a filter moves it. -/
theorem indexMap_spec {es : List CacheEntry} {i : ℕ} {e : CacheEntry} (next : ℕ)
    (h : es[i]? = some e) :
    (indexMap next es)[i]? = some (if alive e then some (next + rank alive es i) else none) ∧
      (alive e → (es.filter alive)[rank alive es i]? = some e) := by
  induction es generalizing next i with
  | nil => exact nomatch h
  | cons x es ih =>
    cases i with
    | zero =>
      obtain rfl := Option.some.inj h
      by_cases hx : x.tombstone = 0 <;> simp [indexMap, alive, rank, hx]
    | succ i =>
      by_cases hx : x.tombstone = 0
      · simpa [indexMap, alive, rank, hx, add_assoc, add_comm 1] using ih (next + 1) h
      · simpa [indexMap, alive, rank, hx] using ih next h

theorem filterMap_indexMap (next : ℕ) (es : List CacheEntry) :
    (indexMap next es).length = es.length ∧
      (indexMap next es).filterMap id = range' next (es.filter alive).length := by
  induction es generalizing next with
  | nil => exact ⟨rfl, rfl⟩
  | cons e es ih =>
    by_cases he : e.tombstone = 0
    · simpa [indexMap, alive, he, range'_succ] using ih (next + 1)
    · simpa [indexMap, alive, he] using ih next

/-- Compaction keeps the active entries in their order, and its map says where each one goes: those
that are kept are numbered 0, 1, 2 and so on. -/
theorem compact_renumbers (c : MemoryCache) : ∃ c' removed map,
    c.compact env = (c', removed, map) ∧ removed + c'.len = c.len ∧ (∀ e ∈ c'.entries, alive e) ∧
      map.length = c.len ∧ map.filterMap id = range c'.len ∧
      ∀ (i : ℕ) (e : CacheEntry), c.entries[i]? = some e →
        map[i]? = some (image alive c.entries i) ∧
        ∀ j : ℕ, image alive c.entries i = some j → c'.entries[j]? = some (renormed env e) := by
  have hmap := filterMap_indexMap 0 c.entries
  refine ⟨_, _, _, rfl, ?_, fun e he => ?_, hmap.1, ?_, fun i e he => ?_⟩
  · exact Nat.sub_add_cancel ((length_map _).trans_le (length_filter_le _ _))
  · obtain ⟨x, hx, rfl⟩ := mem_map.mp he
    exact (mem_filter.mp hx).2
  · rw [hmap.2, range_eq_range', len, length_map]
    rfl
  · obtain ⟨hindex, hfound⟩ := indexMap_spec 0 he
    have hkept : kept alive c.entries i = alive e := by rw [kept, he, Option.any_some]
    refine ⟨by rw [hindex, image, hkept, zero_add], fun j hj => ?_⟩
    obtain ⟨halive, rfl⟩ := image_eq_some.mp hj
    exact getElem?_map.trans (congrArg _ (hfound (hkept ▸ halive)))

/-! ### References -/

def Entity.index (e : Entity) : Option ℕ := e.embeddingIdx.toInt.toNat?

/-- The entities and sessions of `s'` mean the entries that those of `s` mean, when entry `i` is
moved to `moved i`. A session's range includes both its ends. -/
structure ReferencesKept (moved : ℕ → Option ℕ) (s s' : Store) : Prop where
  entities : Forall₂ (fun e e' : Entity =>
      (∀ i j, e.index = some i → moved i = some j → e'.index = some j) ∧
      ∀ j, e'.index = some j → j < s'.mem.cache.len → ∃ i, e.index = some i ∧ moved i = some j)
    s.mem.knowledge.entities s'.mem.knowledge.entities
  sessions : Forall₂ (fun x x' : SessionEntry =>
      (x.startIdx.toNat ≤ x.endIdx.toNat → x.endIdx.toNat < s.mem.cache.len → ∀ j,
        (x'.startIdx.toNat ≤ j ∧ j ≤ x'.endIdx.toNat ∧ j < s'.mem.cache.len) ↔
          ∃ i, x.startIdx.toNat ≤ i ∧ i ≤ x.endIdx.toNat ∧ moved i = some j) ∧
      (x'.startIdx.toNat < s'.mem.cache.len →
        moved x.startIdx.toNat = some x'.startIdx.toNat) ∧
      (x'.endIdx.toNat < s'.mem.cache.len → moved x.endIdx.toNat = some x'.endIdx.toNat))
    s.mem.sessions s'.mem.sessions

/-- An entity is right after a compaction: no entry up to the one it refers to is tombstoned, or
that one is and there are no entries left at its index. -/
def Entity.Undisturbed (c : MemoryCache) (e : Entity) : Prop :=
  ∀ i, e.index = some i →
    Full alive c.entries i ∨ (kept alive c.entries i = false ∧ c.countActive ≤ i)

/-- A session is right after a compaction: no entry up to its end is tombstoned, or its bounds fall
behind the entries that are left. In that case all entries behind it are tombstoned, or its own
are. -/
def SessionEntry.Undisturbed (c : MemoryCache) (x : SessionEntry) : Prop :=
  (Full alive c.entries x.startIdx.toNat ∨ c.countActive ≤ x.startIdx.toNat) ∧
  (Full alive c.entries x.endIdx.toNat ∨ c.countActive ≤ x.endIdx.toNat) ∧
  (x.startIdx.toNat ≤ x.endIdx.toNat → x.endIdx.toNat < c.len →
    Full alive c.entries x.endIdx.toNat ∨
      (Full alive c.entries x.startIdx.toNat ∧
        ∀ k, x.endIdx.toNat < k → kept alive c.entries k = false) ∨
      ∀ k, x.startIdx.toNat ≤ k → k ≤ x.endIdx.toNat → kept alive c.entries k = false)

/-! ### Removals -/

/-- The operations that may remove entries. -/
inductive Removal
  | delete (id : ℕ)
  | compact

namespace Removal

variable (env)

def run : Removal → Op Unit
  | delete id => Agent.delete env id
  | compact => discard (Agent.compact env)

def compacts (s : Store) : Removal → Option MemoryCache
  | delete id => if s.autoCompacts env id then some (s.mem.cache.marked id) else none
  | compact => some s.mem.cache

/-- Where a removal moves each entry. A tombstoned entry stays where it is until a compaction. -/
def moved (s : Store) (op : Removal) (i : ℕ) : Option ℕ :=
  match op.compacts env s with
  | some c => image alive c.entries i
  | none => if i < s.mem.cache.len then some i else none

/-- The references that a removal leaves right. -/
def Undisturbed (s : Store) (op : Removal) : Prop :=
  ∀ c, op.compacts env s = some c →
    (∀ e ∈ s.mem.knowledge.entities, e.Undisturbed c) ∧ ∀ x ∈ s.mem.sessions, x.Undisturbed c

end Removal

theorem entity_undisturbed_iff {c : MemoryCache} {e : Entity} :
    ((∀ i j, e.index = some i → image alive c.entries i = some j → e.index = some j) ∧
      ∀ j, e.index = some j → j < c.countActive →
        ∃ i, e.index = some i ∧ image alive c.entries i = some j) ↔ e.Undisturbed c := by
  unfold Entity.Undisturbed
  cases hindex : e.index with
  | none => simp
  | some i =>
    have hself := @image_self_iff _ alive c.entries i
    constructor
    · rintro ⟨hsurvives, hrange⟩ _ ⟨⟩
      have hsame (hlt : i < c.countActive) : image alive c.entries i = some i := by
        obtain ⟨_, ⟨⟩, himage⟩ := hrange i rfl hlt
        exact himage
      rcases hself.mp hsame with hfull | hge
      · exact .inl hfull
      · cases hkept : kept alive c.entries i with
        | false => exact .inr ⟨rfl, hge⟩
        | true =>
          -- an active entry is moved to its rank
          have himage := image_eq_some.mpr ⟨hkept, rfl⟩
          have hrank := Option.some.inj (hsurvives i _ rfl himage)
          exact .inl (full_iff_image.mpr (image_eq_some.mpr ⟨hkept, hrank.symm⟩))
    · intro h
      rcases h i rfl with hfull | ⟨hkept, hge⟩
      · have himage := full_iff_image.mp hfull
        constructor
        · rintro _ j ⟨⟩ hj
          exact himage.symm.trans hj
        · rintro _ ⟨⟩ _
          exact ⟨_, rfl, himage⟩
      · constructor
        · rintro _ j ⟨⟩ hj
          exact absurd (hkept.symm.trans (image_eq_some.mp hj).1) Bool.false_ne_true
        · rintro _ ⟨⟩ hlt
          exact absurd hge (Nat.not_le_of_lt hlt)

theorem session_undisturbed_iff {c : MemoryCache} {x : SessionEntry} :
    ((x.startIdx.toNat ≤ x.endIdx.toNat → x.endIdx.toNat < c.len → ∀ j,
        (x.startIdx.toNat ≤ j ∧ j ≤ x.endIdx.toNat ∧ j < c.countActive) ↔
          ∃ i, x.startIdx.toNat ≤ i ∧ i ≤ x.endIdx.toNat ∧ image alive c.entries i = some j) ∧
      (x.startIdx.toNat < c.countActive →
        image alive c.entries x.startIdx.toNat = some x.startIdx.toNat) ∧
      (x.endIdx.toNat < c.countActive →
        image alive c.entries x.endIdx.toNat = some x.endIdx.toNat)) ↔ x.Undisturbed c := by
  unfold SessionEntry.Undisturbed countActive
  rw [image_self_iff, image_self_iff]
  constructor
  · rintro ⟨hrange, hstart, hend⟩
    exact ⟨hstart, hend, fun hle hlt => (range_image_iff hle hstart hend).mp (hrange hle hlt)⟩
  · rintro ⟨hstart, hend, hrange⟩
    exact ⟨fun hle hlt => (range_image_iff hle hstart hend).mpr (hrange hle hlt), hstart, hend⟩

theorem Store.references_flushed (s : Store) : (s.flushed env).mem.knowledge = s.mem.knowledge ∧
    (s.flushed env).mem.sessions = s.mem.sessions := by
  rcases s with ⟨⟨_, _, _, _, wal⟩, _⟩
  cases wal <;> exact ⟨rfl, rfl⟩

theorem Store.references_compacted (s : Store) : (s.compacted env).mem.knowledge = s.mem.knowledge ∧
      (s.compacted env).mem.sessions = s.mem.sessions ∧
      (s.compacted env).mem.cache.len = s.mem.cache.countActive := by
  unfold compacted
  have hlen : (s.mem.cache.compacted env).len = s.mem.cache.countActive := length_map _
  split
  case isTrue =>
    have hflushed := @references_flushed env (s.mapCache (MemoryCache.compacted env))
    exact ⟨hflushed.1, hflushed.2, by rw [cache_flushed]; exact hlen⟩
  case isFalse => exact ⟨rfl, rfl, hlen⟩

/-- References are right after a compaction of `s` with cache `c` exactly if they are
undisturbed. -/
theorem referencesKept_compacted {s s' : Store} {c : MemoryCache}
    (hknowledge : s'.mem.knowledge = s.mem.knowledge) (hsessions : s'.mem.sessions = s.mem.sessions)
    (hlen : s'.mem.cache.len = c.countActive) (hc : c.len = s.mem.cache.len) :
    ReferencesKept (image alive c.entries) s s' ↔
      (∀ e ∈ s.mem.knowledge.entities, e.Undisturbed c) ∧ ∀ x ∈ s.mem.sessions,
        x.Undisturbed c := by
  constructor
  · rintro ⟨hentities, hsess⟩
    rw [hknowledge, forall₂_same, hlen] at hentities
    rw [hsessions, forall₂_same, hlen, ← hc] at hsess
    exact ⟨fun e he => entity_undisturbed_iff.mp (hentities e he),
      fun x hx => session_undisturbed_iff.mp (hsess x hx)⟩
  · rintro ⟨hentities, hsess⟩
    constructor
    · rw [hknowledge, forall₂_same, hlen]
      exact fun e he => entity_undisturbed_iff.mpr (hentities e he)
    · rw [hsessions, forall₂_same, hlen, ← hc]
      exact fun x hx => session_undisturbed_iff.mpr (hsess x hx)

theorem MemoryCache.len_marked {c : MemoryCache} {id : ℕ} (h : (c.markDeleted id).2 = true) :
    (c.marked id).len = c.len := by
  obtain ⟨e, _, _, hmarked⟩ := marked_of_true h
  rw [hmarked]
  exact length_set

/-- Where nothing moves, all references are right. -/
theorem referencesKept_same {s s' : Store} {moved : ℕ → Option ℕ}
    (hknowledge : s'.mem.knowledge = s.mem.knowledge) (hsessions : s'.mem.sessions = s.mem.sessions)
    (hlen : s'.mem.cache.len = s.mem.cache.len)
    (hmoved : ∀ i j, moved i = some j ↔ i < s.mem.cache.len ∧ i = j) :
    ReferencesKept moved s s' where
  entities := by
    rw [hknowledge, forall₂_same, hlen]
    intro e _
    constructor
    · intro i j hindex hij
      rw [hindex, ((hmoved i j).mp hij).2]
    · intro j hindex hlt
      exact ⟨j, hindex, (hmoved j j).mpr ⟨hlt, rfl⟩⟩
  sessions := by
    rw [hsessions, forall₂_same, hlen]
    intro x _
    refine ⟨fun _ _ j => ?_, fun hlt => (hmoved _ _).mpr ⟨hlt, rfl⟩,
      fun hlt => (hmoved _ _).mpr ⟨hlt, rfl⟩⟩
    simp only [hmoved]
    constructor
    · rintro ⟨hstart, hend, hlt⟩
      exact ⟨j, hstart, hend, hlt, rfl⟩
    · rintro ⟨_, hstart, hend, hlt, rfl⟩
      exact ⟨hstart, hend, hlt⟩

/-- After a deletion or compaction that succeeds, references mean the entries they meant before
exactly if they are undisturbed by the compaction, if there is one. -/
theorem referencesKept_iff {op : Removal} {w w' : World} {u : Unit}
    (h : op.run env w = .ok u w') :
    ReferencesKept (op.moved env w.toStore) w.toStore w'.toStore ↔
      op.Undisturbed env w.toStore := by
  cases op with
  | compact =>
    have hspec : Ensures (fun _ w' => w'.toStore = w.toStore.compacted env) (fun _ _ => True)
        (Removal.compact.run env w) := by
      refine ensures_map.mpr ((compact_spec env w).mono (fun _ w' hok => ?_) fun _ _ _ => trivial)
      obtain ⟨_, n, hafter⟩ := hok
      exact hafter.store
    obtain ⟨hknowledge, hsessions, hlen⟩ := @references_compacted env w.toStore
    rw [hspec.of_ok h]
    refine (referencesKept_compacted hknowledge hsessions hlen rfl).trans ?_
    simp [Removal.Undisturbed, Removal.compacts]
  | delete id =>
    have hmark : (w.mem.cache.markDeleted id).2 = true := by
      by_contra hfalse
      rw [Removal.run, delete_of_not env (Bool.eq_false_iff.mpr hfalse)] at h
      exact nomatch h
    obtain ⟨n, hafter⟩ := (delete_spec env hmark).of_ok h
    have hflushed := @references_flushed env (w.toStore.mapCache (marked id))
    have hmarked := len_marked hmark
    rw [hafter.store]
    by_cases hauto : w.toStore.autoCompacts env id = true
    · obtain ⟨hknowledge, hsessions, hlen⟩ :=
        @references_compacted env (w.toStore.deleted env id)
      rw [cache_deleted] at hlen
      have hcompacts : (Removal.delete id).compacts env w.toStore =
        some (w.mem.cache.marked id) := if_pos hauto
      have hmoved : (Removal.delete id).moved env w.toStore =
          image alive (w.mem.cache.marked id).entries := by
        funext i
        simp only [Removal.moved, hcompacts]
      rw [if_pos hauto, hmoved]
      refine (@referencesKept_compacted w.toStore _ _ (hknowledge.trans hflushed.1)
        (hsessions.trans hflushed.2) hlen hmarked).trans ?_
      simp [Removal.Undisturbed, hcompacts]
    · -- the entry is tombstoned, and nothing moves
      have hcompacts : (Removal.delete id).compacts env w.toStore = none := if_neg hauto
      rw [if_neg hauto]
      refine iff_of_true (@referencesKept_same w.toStore _ _ hflushed.1 hflushed.2 ?_ fun i j => ?_)
        ?_
      · rw [cache_deleted, hmarked]
      · simp [Removal.moved, hcompacts]
      · intro c hc
        exact nomatch hcompacts.symm.trans hc

/-! ### Three entries with references -/

/-- Three entries, an entity that refers to one of them and a session over a range of them. -/
def referred (embeddingIdx : Int64) (start stop : UInt64) : Op Unit := do
  let _ ← saveBatch zeroEnv [zeroEntry "a" "x", zeroEntry "b" "y", zeroEntry "c" "z"]
  let _ ← addEntity zeroEnv "e" "concept" embeddingIdx
  addSession zeroEnv "s" start stop "" "" 0

/-- The last entry is removed, and the references are to the others. -/
theorem referencesKept_last :
    ∃ s, create zeroEnv zeroConfig ⟨none, none⟩ = .ok s ∧
      ∃ w, stateOf (referred 1 0 1 ⟨s, none⟩) = .ok w ∧
      ∃ w', (Removal.delete 2).run zeroEnv w = .ok () w' ∧ w'.mem.cache.len = 2 ∧
        ReferencesKept ((Removal.delete 2).moved zeroEnv w.toStore) w.toStore w'.toStore := by
  refine Exists.imp (fun s => And.imp_right (Exists.imp fun w => And.imp_right
    (Exists.imp (p := fun w' => stateOf ((Removal.delete 2).run zeroEnv w) = .ok w' ∧
      w'.mem.cache.len = 2 ∧ (∀ e ∈ w.mem.knowledge.entities, e.index = some 1) ∧
      (∀ x ∈ w.mem.sessions, x.startIdx = 0 ∧ x.endIdx = 1) ∧
      ∀ c ∈ (Removal.delete 2).compacts zeroEnv w.toStore, Full alive c.entries 1)
      fun w' h => ?_))) (by decide +kernel)
  obtain ⟨hdelete, hlen, hentities, hsessions, hfull⟩ := h
  obtain ⟨_, hdelete⟩ := stateOf_eq_ok.mp hdelete
  refine ⟨hdelete, hlen, (referencesKept_iff hdelete).mpr fun c hc => ?_⟩
  have hone := hfull c hc
  have hzero : Full alive c.entries 0 := fun k hk => hone k (hk.trans (Nat.zero_le 1))
  refine ⟨fun e he i hi => .inl ?_, fun x hx => ?_⟩
  · obtain rfl : 1 = i := Option.some.inj ((hentities e he).symm.trans hi)
    exact hone
  · obtain ⟨hstart, hend⟩ := hsessions x hx
    rw [SessionEntry.Undisturbed, hstart, hend]
    exact ⟨.inl hzero, .inl hone, fun _ _ => .inl hone⟩

/-- The first entry is removed. The entity that referred to the second now refers to the third, and
the session over the last two has only the third. -/
theorem references_shifted :
    ∃ s, create zeroEnv zeroConfig ⟨none, none⟩ = .ok s ∧
      ∃ w, stateOf (referred 1 1 2 ⟨s, none⟩) = .ok w ∧
      ∃ w', stateOf ((Removal.delete 0).run zeroEnv w) = .ok w' ∧
        ¬ ReferencesKept ((Removal.delete 0).moved zeroEnv w.toStore) w.toStore w'.toStore ∧
        (w.mem.cache.entries.map (·.chunk) = ["a", "b", "c"] ∧
          w'.mem.cache.entries.map (·.chunk) = ["b", "c"] ∧
          w'.mem.knowledge.entities.map (·.embeddingIdx) = [1] ∧
          w'.mem.sessions.map (fun x => (x.startIdx, x.endIdx)) = [(1, 2)]) := by
  have hmoves : ∀ w w' : World, w.mem.knowledge.entities = [⟨0, "e", "concept", 1⟩] ∧
      w'.mem.knowledge.entities = [⟨0, "e", "concept", 1⟩] ∧
      (Removal.delete 0).moved zeroEnv w.toStore 1 = some 0 →
      ¬ ReferencesKept ((Removal.delete 0).moved zeroEnv w.toStore) w.toStore w'.toStore := by
    rintro w w' ⟨hbefore, hafter, hmoved⟩ hkept
    have hentities := hkept.entities
    rw [hbefore, hafter, forall₂_cons] at hentities
    have hindex := hentities.1.1 1 0 rfl hmoved
    exact absurd hindex (by decide)
  refine Exists.imp (fun s => And.imp_right (Exists.imp fun w => And.imp_right
    (Exists.imp fun w' => And.imp_right (And.imp_left (hmoves w w'))))) ?_
  decide +kernel

end ClawHdf5.Agent
