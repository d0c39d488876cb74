import ClawHdf5.Format.ChunkLayout
import ClawHdf5.Math.Stateful

/-!
# The chunk cache

A cache of decoded chunks that all datasets of a file share. It is bound to one dataset at a time,
by the address of the dataset's chunk index, and keeps for it the chunk index, the plan for the
assembly, and decoded chunks in slots. A slot is found by the chunk's coordinates; when there is no
room, the slot that was not used for the longest time is given up.

The access statistics, which are only reported, are left out.
-/

namespace ClawHdf5.Format

open Fallible Stateful List

/-! ### The cache -/

/-- A decoded chunk, with the time of its last use. -/
structure CachedChunk where
  coord : List ℕ
  data : Bytes
  lastAccess : ℕ
  deriving DecidableEq

abbrev ChunkMap := List (List ℕ × ChunkInfo)

structure ChunkCache where
  index : Option ChunkMap
  indexAddr : Option ℕ
  slots : List CachedChunk
  currentBytes : ℕ
  maxBytes : ℕ
  maxSlots : ℕ
  tick : ℕ
  chunkIndex : Option ChunkMap
  chunkLayout : Option ChunkLayout
  deriving DecidableEq

def ChunkCache.withCapacity (maxBytes maxSlots : ℕ) : ChunkCache where
  index := none
  indexAddr := none
  slots := []
  currentBytes := 0
  maxBytes := maxBytes
  maxSlots := maxSlots
  tick := 0
  chunkIndex := none
  chunkLayout := none

abbrev Cached (α : Type) := EStateM (Halt FormatError) ChunkCache α

/-- Bind the cache to the dataset whose chunk index is at `addr`. What it holds for another one is
dropped. The result says whether there was such. -/
def ensureDataset (addr : ℕ) : Cached Bool := fun cache =>
  if cache.indexAddr = some addr then .ok false cache
  else .ok true { cache with
    index := none
    chunkIndex := none
    chunkLayout := none
    slots := []
    currentBytes := 0
    indexAddr := some addr }

def clear : Cached Unit := modify fun cache => .withCapacity cache.maxBytes cache.maxSlots

/-! ### The slots -/

/-- Mark the first slot at the coordinates as used. -/
def touchSlot (coord : List ℕ) (tick : ℕ) : List CachedChunk → List CachedChunk
  | [] => []
  | slot :: slots =>
    if slot.coord = coord then { slot with lastAccess := tick } :: slots
    else slot :: touchSlot coord tick slots

/-- Find a decoded chunk. Finding it is a use of its slot. -/
def getDecompressed (coord : List ℕ) : Cached (Option Bytes) := fun cache =>
  let tick := wrap (cache.tick + 1)
  .ok ((cache.slots.find? (·.coord == coord)).map (·.data))
    { cache with tick := tick, slots := touchSlot coord tick cache.slots }

/-- The same, for a buffer that is aligned. -/
def getDecompressedAligned (coord : List ℕ) : Cached (Option Bytes) := getDecompressed coord

/-- The number of the first slot with the oldest use. -/
def lruIndex (slots : List CachedChunk) : Option ℕ :=
  ((slots.map (·.lastAccess)).min?).map fun oldest => slots.findIdx (·.lastAccess == oldest)

/-- Remove an element and move the last one to its place. -/
def swapRemove {α : Type} (xs : List α) (i : ℕ) : List α :=
  match xs.getLast? with
  | none => []
  | some last => (xs.set i last).dropLast

/-- Give up slots until a chunk of `dataLen` bytes has room. The first number is the length of
`slots`; without slots there is none to give up. -/
def evict (maxBytes maxSlots dataLen : ℕ) :
    ℕ → (slots : List CachedChunk) → (currentBytes : ℕ) → Run (List CachedChunk × ℕ)
  | left, slots, currentBytes =>
    if maxSlots ≤ slots.length ∨ maxBytes < currentBytes + dataLen ∧ slots ≠ [] then
      match left with
      | 0 => .error .panic
      | left + 1 => do
        let lru ← okOr .panic (lruIndex slots)
        let removed ← index slots lru
        evict maxBytes maxSlots dataLen left (swapRemove slots lru)
          (currentBytes - removed.data.length)
    else .ok (slots, currentBytes)

/-- Put a decoded chunk into a slot, unless it is larger than the cache or already there. -/
def putDecompressed (coord : List ℕ) (data : Bytes) : Cached Unit := do
  let cache ← get
  if cache.maxBytes < data.length then pure ()
  else
    let tick := wrap (cache.tick + 1)
    if coord ∈ cache.slots.map (·.coord) then
      set { cache with tick := tick, slots := touchSlot coord tick cache.slots }
    else do
      set { cache with tick := tick }
      let rest ← raise (evict cache.maxBytes cache.maxSlots data.length cache.slots.length
        cache.slots cache.currentBytes)
      set { cache with
        tick := tick
        slots := rest.1 ++ [CachedChunk.mk coord data tick]
        currentBytes := rest.2 + data.length }

/-! ### What the slots hold -/

/-- Every slot holds a chunk as `P` has it. -/
def ChunkCache.SlotsHold (P : List ℕ → Bytes → Prop) (cache : ChunkCache) : Prop :=
  ∀ slot ∈ cache.slots, P slot.coord slot.data

/-- Only the slots may have changed. -/
def ChunkCache.SameDataset (cache cache' : ChunkCache) : Prop :=
  ∃ slots bytes tick,
    cache' = { cache with slots := slots, currentBytes := bytes, tick := tick }

theorem ChunkCache.SameDataset.refl (cache : ChunkCache) : cache.SameDataset cache :=
  ⟨cache.slots, cache.currentBytes, cache.tick, rfl⟩

theorem ChunkCache.SameDataset.trans {c₁ c₂ c₃ : ChunkCache} (h : c₁.SameDataset c₂)
    (h' : c₂.SameDataset c₃) : c₁.SameDataset c₃ := by
  obtain ⟨_, _, _, rfl⟩ := h
  obtain ⟨slots, bytes, tick, rfl⟩ := h'
  exact ⟨slots, bytes, tick, rfl⟩

theorem ChunkCache.SameDataset.maxSlots_eq {cache cache' : ChunkCache}
    (h : cache.SameDataset cache') : cache'.maxSlots = cache.maxSlots := by
  obtain ⟨_, _, _, rfl⟩ := h
  rfl

section

variable {P : List ℕ → Bytes → Prop} {cache : ChunkCache} {coord : List ℕ} {data : Bytes}

theorem forall_touchSlot {tick : ℕ} {slots : List CachedChunk}
    (h : ∀ slot ∈ slots, P slot.coord slot.data) :
    ∀ slot ∈ touchSlot coord tick slots, P slot.coord slot.data := by
  induction slots with
  | nil => exact h
  | cons slot slots ih =>
    obtain ⟨hslot, hslots⟩ := forall_mem_cons.mp h
    rw [touchSlot]
    split_ifs
    · exact forall_mem_cons.mpr ⟨hslot, hslots⟩
    · exact forall_mem_cons.mpr ⟨hslot, ih hslots⟩

theorem exists_slot_of_find {slots : List CachedChunk}
    (h : (slots.find? (·.coord == coord)).map (·.data) = some data) :
    ∃ slot ∈ slots, slot.coord = coord ∧ slot.data = data := by
  obtain ⟨slot, hslot, rfl⟩ := Option.map_eq_some_iff.mp h
  exact ⟨slot, mem_of_find?_eq_some hslot, by simpa using find?_some hslot, rfl⟩

/-- What is found was held for the coordinates. -/
theorem ensures_getDecompressed (h : cache.SlotsHold P) (coord : List ℕ) :
    Ensures (fun found cache' => (∀ data, found = some data → P coord data) ∧
        cache'.SlotsHold P ∧ cache.SameDataset cache')
      (fun _ _ => False) (getDecompressed coord cache) := by
  refine ⟨?_, forall_touchSlot h, ⟨_, cache.currentBytes, _, rfl⟩⟩
  intro data hfound
  obtain ⟨slot, hslot, rfl, rfl⟩ := exists_slot_of_find hfound
  exact h slot hslot

/-- An element is removed, and the others stay. -/
theorem perm_swapRemove {α : Type} {xs : List α} {i : ℕ} (hi : i < xs.length) :
    xs.Perm (xs[i] :: swapRemove xs i) := by
  obtain ⟨ys, last, rfl⟩ := (eq_nil_or_concat xs).resolve_left (ne_nil_of_length_pos
    (Nat.zero_lt_of_lt hi))
  simp only [concat_eq_append, swapRemove, getLast?_concat] at hi ⊢
  refine perm_append_comm.trans ?_
  by_cases hlast : i < ys.length
  · rw [getElem_append_left hlast, set_append_left _ _ hlast, dropLast_concat]
    refine ((getElem_cons_eraseIdx_perm hlast).symm.cons last).trans ?_
    exact (List.Perm.swap _ _ _).trans ((set_perm_cons_eraseIdx hlast last).symm.cons _)
  · obtain rfl : i = ys.length := by simp at hi; omega
    simp

/-- Where there are slots, one of them has the oldest use. -/
theorem exists_lruIndex {slots : List CachedChunk} (h : slots ≠ []) :
    ∃ i, ∃ hi : i < slots.length, lruIndex slots = some i ∧
      ∀ slot ∈ slots, slots[i].lastAccess ≤ slot.lastAccess := by
  obtain ⟨oldest, holdest⟩ : ∃ oldest, (slots.map (·.lastAccess)).min? = some oldest :=
    Option.ne_none_iff_exists'.mp fun hnone => h (by simpa using min?_eq_none_iff.mp hnone)
  obtain ⟨hmem, hmin⟩ := min?_eq_some_iff.mp holdest
  obtain ⟨slot, hslot, hlast⟩ := mem_map.mp hmem
  have hi : slots.findIdx (·.lastAccess == oldest) < slots.length :=
    findIdx_lt_length_of_exists ⟨slot, hslot, by simpa using hlast⟩
  refine ⟨_, hi, by rw [lruIndex, holdest]; rfl, fun slot hslot => ?_⟩
  have hfound : slots[slots.findIdx (·.lastAccess == oldest)].lastAccess = oldest := by
    simpa using findIdx_getElem (w := hi)
  exact hfound.trans_le (hmin _ (mem_map_of_mem hslot))

def slotBytes (slots : List CachedChunk) : ℕ := (slots.map (·.data.length)).sum

/-- Where there is at least one slot, room is made by giving up the slots with the oldest use. -/
theorem evict_ok {maxBytes maxSlots dataLen : ℕ} (hslots : 0 < maxSlots) (left : ℕ)
    {slots : List CachedChunk} (hleft : left = slots.length) (currentBytes : ℕ) :
    ∃ gone rest bytes, evict maxBytes maxSlots dataLen left slots currentBytes =
        .ok (rest, bytes) ∧ slots.Perm (gone ++ rest) ∧
      (∀ old ∈ gone, ∀ slot ∈ rest, old.lastAccess ≤ slot.lastAccess) ∧
      (currentBytes = slotBytes slots → bytes = slotBytes rest) ∧ rest.length < maxSlots ∧
      (rest ≠ [] → bytes + dataLen ≤ maxBytes) := by
  induction left generalizing slots currentBytes with
  | zero =>
    obtain rfl := length_eq_zero_iff.mp hleft.symm
    refine ⟨[], [], currentBytes, ?_, .nil, nofun, id, hslots, fun h => absurd rfl h⟩
    rw [evict, if_neg (by simp; omega)]
  | succ left ih =>
    rw [evict]
    split_ifs with hfull
    · obtain ⟨lru, hlt, hlru, hold⟩ :=
        exists_lruIndex (ne_nil_of_length_eq_add_one hleft.symm)
      have hperm := perm_swapRemove hlt
      have hbytes : slotBytes slots = slots[lru].data.length + slotBytes (swapRemove slots lru) :=
        ((hperm.map _).sum_eq).trans sum_cons
      obtain ⟨gone, rest, bytes, hrun, hrest, hgone, hsum, hroom⟩ :=
        @ih (swapRemove slots lru) (by have := hperm.length_eq; simp at this; omega)
          (currentBytes - slots[lru].data.length)
      refine ⟨slots[lru] :: gone, rest, bytes, ?_, hperm.trans (hrest.cons _), ?_, ?_, hroom⟩
      · rw [hlru, okOr_eq_ok.mpr rfl, ok_bind, index_eq_ok.mpr (getElem?_eq_getElem hlt)]
        exact hrun
      · refine forall_mem_cons.mpr ⟨fun slot hslot => hold slot ?_, hgone⟩
        exact hperm.mem_iff.mpr (mem_cons_of_mem _ (hrest.mem_iff.mpr (mem_append_right _ hslot)))
      · intro hcurrent
        exact hsum (by rw [hcurrent, hbytes, Nat.add_sub_cancel_left])
    · rw [not_or, not_and_or, not_not] at hfull
      exact ⟨[], slots, _, rfl, .rfl, nofun, id, Nat.lt_of_not_le hfull.1,
        fun hne => not_lt.mp (hfull.2.resolve_right hne)⟩

/-- A chunk is put into a slot; other slots are kept or given up. -/
theorem ensures_putDecompressed (hslots : 0 < cache.maxSlots) (h : cache.SlotsHold P)
    (hP : P coord data) :
    Ensures (fun _ cache' => cache'.SlotsHold P ∧ cache.SameDataset cache') (fun _ _ => False)
      (putDecompressed coord data cache) := by
  rw [putDecompressed, ensures_get_bind]
  split_ifs
  · exact ⟨h, .refl cache⟩
  · exact ⟨forall_touchSlot h, ⟨_, _, _, rfl⟩⟩
  · obtain ⟨gone, rest, bytes, hrun, hperm, -⟩ :=
      @evict_ok cache.maxBytes cache.maxSlots data.length hslots _ cache.slots rfl
        cache.currentBytes
    rw [hrun]
    refine ⟨?_, ⟨_, _, _, rfl⟩⟩
    intro slot hslot
    rcases mem_append.mp hslot with hold | hnew
    · exact h slot (hperm.mem_iff.mpr (mem_append_right _ hold))
    · rw [mem_singleton.mp hnew]
      exact hP

end

/-! ### Runs -/

inductive CacheCall
  | ensureDataset (addr : ℕ)
  | getDecompressed (coord : List ℕ)
  | getDecompressedAligned (coord : List ℕ)
  | putDecompressed (coord : List ℕ) (data : Bytes)
  | clear

/-- Make a call. Only a `get` has an answer that matters here. -/
def CacheCall.run : CacheCall → Cached (Option Bytes)
  | .ensureDataset addr => (fun _ => none) <$> Format.ensureDataset addr
  | .getDecompressed coord => Format.getDecompressed coord
  | .getDecompressedAligned coord => Format.getDecompressedAligned coord
  | .putDecompressed coord data => (fun _ => none) <$> Format.putDecompressed coord data
  | .clear => (fun _ => none) <$> Format.clear

/-- What was asked of a cache: the dataset in use, the chunks put for it, and the coordinates as
they were used, the latest first. -/
structure CacheHistory where
  dataset : Option ℕ
  puts : List (List ℕ × Bytes)
  uses : List (List ℕ)

/-- When the coordinates were last used. -/
def CacheHistory.lastUse (history : CacheHistory) (coord : List ℕ) : ℕ :=
  history.uses.length - history.uses.idxOf coord

def CacheHistory.use (history : CacheHistory) (coord : List ℕ) : CacheHistory :=
  { history with uses := coord :: history.uses }

/-- The history after a call. A chunk that is larger than the cache is not put. -/
def CacheHistory.record (maxBytes : ℕ) (history : CacheHistory) : CacheCall → CacheHistory
  | .ensureDataset addr =>
    if history.dataset = some addr then history
    else { history with dataset := some addr, puts := [] }
  | .getDecompressed coord => history.use coord
  | .getDecompressedAligned coord => history.use coord
  | .putDecompressed coord data =>
    if maxBytes < data.length then history
    else { history.use coord with puts := (coord, data) :: history.puts }
  | .clear => ⟨none, [], []⟩

/-- The cache keeps its limits and its account, and its slots hold what was put. -/
structure ChunkCache.Sound (maxBytes maxSlots : ℕ) (history : CacheHistory)
    (cache : ChunkCache) : Prop where
  maxBytes_eq : cache.maxBytes = maxBytes
  maxSlots_eq : cache.maxSlots = maxSlots
  currentBytes_eq : cache.currentBytes = slotBytes cache.slots
  currentBytes_le : cache.currentBytes ≤ maxBytes
  length_le : cache.slots.length ≤ maxSlots
  nodup : (cache.slots.map (·.coord)).Nodup
  indexAddr_eq : cache.indexAddr = history.dataset
  held : ∀ slot ∈ cache.slots, (slot.coord, slot.data) ∈ history.puts
  tick_eq : cache.tick = history.uses.length
  lastAccess_eq : ∀ slot ∈ cache.slots, slot.lastAccess = history.lastUse slot.coord

/-- A call returns. What a `get` finds was put for its coordinates, and every slot that was given
up had an older use than every slot that is there afterwards. -/
def CallSound (maxBytes : ℕ) (history : CacheHistory) (call : CacheCall) (cache : ChunkCache)
    (found : Option Bytes) (cache' : ChunkCache) : Prop :=
  call.run cache = .ok found cache' ∧
  (∀ coord data, call = .getDecompressed coord ∨ call = .getDecompressedAligned coord →
    found = some data → (coord, data) ∈ history.puts) ∧
  ∀ old ∈ cache.slots, old.coord ∉ cache'.slots.map (·.coord) → ∀ slot ∈ cache'.slots,
    (history.record maxBytes call).lastUse old.coord ≤
      (history.record maxBytes call).lastUse slot.coord

/-- Every call of a run is sound, and so is every state. -/
def RunSound (maxBytes maxSlots : ℕ) :
    List CacheCall → CacheHistory → ChunkCache → Prop
  | [], history, cache => cache.Sound maxBytes maxSlots history
  | call :: calls, history, cache =>
    cache.Sound maxBytes maxSlots history ∧ ∃ found cache',
      CallSound maxBytes history call cache found cache' ∧
      RunSound maxBytes maxSlots calls (history.record maxBytes call) cache'

open CacheHistory

section

variable {maxBytes maxSlots : ℕ} {history : CacheHistory} {cache : ChunkCache}

theorem lastUse_use_self (coord : List ℕ) :
    (history.use coord).lastUse coord = history.uses.length + 1 := by
  simp [use, lastUse]

theorem lastUse_use_of_ne {coord other : List ℕ} (h : coord ≠ other) :
    (history.use coord).lastUse other = history.lastUse other := by
  simp [use, lastUse, idxOf_cons_ne _ h]

theorem lastUse_le (coord : List ℕ) : history.lastUse coord ≤ history.uses.length := Nat.sub_le _ _

/-- With distinct coordinates at most one slot is marked. -/
theorem touchSlot_eq_map {coord : List ℕ} {tick : ℕ} {slots : List CachedChunk}
    (h : (slots.map (·.coord)).Nodup) :
    touchSlot coord tick slots = slots.map fun slot =>
      { slot with lastAccess := if slot.coord = coord then tick else slot.lastAccess } := by
  induction slots with
  | nil => rfl
  | cons slot slots ih =>
    obtain ⟨hnot, hnodup⟩ := nodup_cons.mp h
    rw [touchSlot, map_cons]
    split_ifs with hcoord
    · refine congrArg _ ((map_congr_left fun other hother => ?_).trans (map_id _)).symm
      have hne : other.coord ≠ coord := fun heq =>
        hnot (mem_map.mpr ⟨other, hother, heq.trans hcoord.symm⟩)
      rw [if_neg hne, id]
    · rw [ih hnodup]

/-- A use of the coordinates, whether there is a slot for them or not. -/
theorem ChunkCache.Sound.touch (h : cache.Sound maxBytes maxSlots history)
    (huses : history.uses.length + 1 < 2 ^ 64) (coord : List ℕ) :
    ChunkCache.Sound maxBytes maxSlots (history.use coord) { cache with
      tick := wrap (cache.tick + 1)
      slots := touchSlot coord (wrap (cache.tick + 1)) cache.slots } := by
  rw [h.tick_eq, wrap_of_lt huses, touchSlot_eq_map h.nodup]
  refine ⟨h.maxBytes_eq, h.maxSlots_eq, ?_, h.currentBytes_le, ?_, ?_, h.indexAddr_eq, ?_, rfl, ?_⟩
  · rw [slotBytes, map_map]
    exact h.currentBytes_eq
  · rw [length_map]
    exact h.length_le
  · rw [map_map]
    exact h.nodup
  · exact forall_mem_map.mpr h.held
  · refine forall_mem_map.mpr fun slot hslot => ?_
    by_cases hcoord : slot.coord = coord
    · rw [if_pos hcoord, hcoord, lastUse_use_self]
    · rw [if_neg hcoord, lastUse_use_of_ne (Ne.symm hcoord)]
      exact h.lastAccess_eq slot hslot

theorem map_coord_touchSlot (coord : List ℕ) (tick : ℕ) (slots : List CachedChunk) :
    (touchSlot coord tick slots).map (·.coord) = slots.map (·.coord) := by
  induction slots with
  | nil => rfl
  | cons slot slots ih =>
    rw [touchSlot]
    split_ifs
    · rfl
    · rw [map_cons, ih, map_cons]

section

variable (h : cache.Sound maxBytes maxSlots history) (huses : history.uses.length + 1 < 2 ^ 64)
include h huses

theorem exists_callSound_get {call : CacheCall} {coord : List ℕ}
    (hcall : call = .getDecompressed coord ∨ call = .getDecompressedAligned coord) :
    ∃ found cache', CallSound maxBytes history call cache found cache' ∧
      cache'.Sound maxBytes maxSlots (history.record maxBytes call) := by
  have hrun : call.run = Format.getDecompressed coord := by rcases hcall with rfl | rfl <;> rfl
  refine ⟨_, _, ⟨by rw [hrun, Format.getDecompressed], fun other data hother hfound => ?_,
    fun old hold hgone => ?_⟩, ?_⟩
  · obtain rfl : coord = other := by rcases hcall with rfl | rfl <;> simpa using hother
    obtain ⟨slot, hslot, rfl, rfl⟩ := exists_slot_of_find hfound
    exact h.held slot hslot
  · rw [map_coord_touchSlot] at hgone
    exact absurd (mem_map_of_mem hold) hgone
  · rcases hcall with rfl | rfl <;> exact h.touch huses coord

theorem ChunkCache.Sound.enter {coord : List ℕ} {data : Bytes} (hfit : data.length ≤ maxBytes)
    (hcoord : coord ∉ cache.slots.map (·.coord)) {gone rest : List CachedChunk} {bytes : ℕ}
    (hperm : cache.slots.Perm (gone ++ rest)) (hbytes : bytes = slotBytes rest)
    (hlen : rest.length < maxSlots) (hroom : rest ≠ [] → bytes + data.length ≤ maxBytes) :
    ChunkCache.Sound maxBytes maxSlots
      { history.use coord with puts := (coord, data) :: history.puts } { cache with
      tick := wrap (cache.tick + 1)
      slots := rest ++ [CachedChunk.mk coord data (wrap (cache.tick + 1))]
      currentBytes := bytes + data.length } := by
  have hsub : ∀ slot ∈ rest, slot ∈ cache.slots := fun slot hslot =>
    hperm.mem_iff.mpr (mem_append_right _ hslot)
  rw [h.tick_eq, wrap_of_lt huses]
  refine ⟨h.maxBytes_eq, h.maxSlots_eq, ?_, ?_, ?_, ?_, h.indexAddr_eq, ?_, rfl, ?_⟩
  · rw [hbytes, slotBytes, slotBytes, map_append, sum_append, map_singleton, sum_singleton]
  · rcases eq_or_ne rest [] with rfl | hrest
    · rw [hbytes]
      exact (zero_add _).trans_le hfit
    · exact hroom hrest
  · rw [length_append]
    exact hlen
  · rw [map_append, map_singleton, ← concat_eq_append]
    have hnodup := (hperm.map (·.coord)).nodup_iff.mp h.nodup
    rw [map_append] at hnodup
    refine (List.Nodup.of_append_right hnodup).concat fun hmem => hcoord ?_
    exact map_subset _ hsub hmem
  · refine forall_mem_append.mpr ⟨fun slot hslot => ?_, ?_⟩
    · exact mem_cons_of_mem _ (h.held slot (hsub slot hslot))
    · exact forall_mem_singleton.mpr mem_cons_self
  · refine forall_mem_append.mpr ⟨fun slot hslot => ?_, ?_⟩
    · refine (h.lastAccess_eq slot (hsub slot hslot)).trans (lastUse_use_of_ne ?_).symm
      rintro rfl
      exact hcoord (mem_map_of_mem (hsub slot hslot))
    · exact forall_mem_singleton.mpr (lastUse_use_self coord).symm

/-- A `put` is sound where there are slots at all. -/
theorem exists_callSound_put {coord : List ℕ} {data : Bytes}
    (hput : 0 < maxSlots ∨ maxBytes < data.length) :
    ∃ found cache', CallSound maxBytes history (.putDecompressed coord data) cache found cache' ∧
      cache'.Sound maxBytes maxSlots (history.record maxBytes (.putDecompressed coord data)) := by
  obtain rfl := h.maxBytes_eq
  obtain rfl := h.maxSlots_eq
  by_cases hfit : cache.maxBytes < data.length
  · have hrun : Format.putDecompressed coord data cache = .ok ⟨⟩ cache := by
      change (if _ then _ else _ : Cached Unit) cache = _
      rw [if_pos hfit]
      rfl
    refine ⟨none, cache, ⟨map_ok hrun, fun _ _ _ => nofun, fun old hold hgone => ?_⟩, ?_⟩
    · exact absurd (mem_map_of_mem hold) hgone
    · rw [record, if_pos hfit]
      exact h
  by_cases hcoord : coord ∈ cache.slots.map (·.coord)
  · have hrun : Format.putDecompressed coord data cache = .ok ⟨⟩ { cache with
        tick := wrap (cache.tick + 1)
        slots := touchSlot coord (wrap (cache.tick + 1)) cache.slots } := by
      change (if _ then _ else _ : Cached Unit) cache = _
      rw [if_neg hfit, if_pos hcoord]
      rfl
    refine ⟨none, _, ⟨map_ok hrun, fun _ _ _ => nofun, fun old hold hgone => ?_⟩, ?_⟩
    · rw [map_coord_touchSlot] at hgone
      exact absurd (mem_map_of_mem hold) hgone
    · rw [record, if_neg hfit]
      have htouch := h.touch huses coord
      exact { htouch with held := fun slot h => mem_cons_of_mem _ (htouch.held slot h) }
  · obtain ⟨gone, rest, bytes, hevict, hperm, hold, hbytes, hlen, hroom⟩ :=
      @evict_ok cache.maxBytes cache.maxSlots data.length (hput.resolve_right hfit) _ cache.slots
        rfl cache.currentBytes
    have hrun : Format.putDecompressed coord data cache = .ok ⟨⟩ { cache with
        tick := wrap (cache.tick + 1)
        slots := rest ++ [CachedChunk.mk coord data (wrap (cache.tick + 1))]
        currentBytes := bytes + data.length } := by
      change (if _ then _ else _ : Cached Unit) cache = _
      rw [if_neg hfit, if_neg hcoord, hevict]
      rfl
    have hsound := h.enter huses (not_lt.mp hfit) hcoord hperm (hbytes h.currentBytes_eq)
      hlen hroom
    refine ⟨none, _, ⟨map_ok hrun, fun _ _ _ => nofun, fun old hmem hgone slot hslot => ?_⟩, ?_⟩
    · rw [record, if_neg hfit]
      have hne : coord ≠ old.coord := fun heq => hcoord (heq ▸ mem_map_of_mem hmem)
      refine le_of_eq_of_le (lastUse_use_of_ne hne) ?_
      rcases mem_append.mp hslot with hslot | hslot
      · have hgone : old ∈ gone := (mem_append.mp (hperm.mem_iff.mp hmem)).resolve_right
          fun hrest => hgone (mem_map_of_mem (mem_append_left _ hrest))
        rw [← h.lastAccess_eq old hmem]
        exact (hold old hgone slot hslot).trans (hsound.lastAccess_eq slot (by simp [hslot])).le
      · rw [mem_singleton.mp hslot]
        exact (lastUse_le _).trans ((Nat.le_succ _).trans_eq (lastUse_use_self coord).symm)
    · rw [record, if_neg hfit]
      exact hsound

/-- Every call leaves a sound cache sound. -/
theorem exists_callSound {call : CacheCall} (hput : 0 < maxSlots ∨
      ∀ coord data, call = .putDecompressed coord data → maxBytes < data.length) :
    ∃ found cache', CallSound maxBytes history call cache found cache' ∧
      cache'.Sound maxBytes maxSlots (history.record maxBytes call) := by
  cases call with
  | ensureDataset addr =>
    by_cases haddr : cache.indexAddr = some addr
    · have hrun : Format.ensureDataset addr cache = .ok false cache := if_pos haddr
      refine ⟨none, cache, ⟨map_ok hrun, fun _ _ _ => nofun, fun old hold hgone => ?_⟩, ?_⟩
      · exact absurd (mem_map_of_mem hold) hgone
      · rw [record, if_pos (h.indexAddr_eq ▸ haddr)]
        exact h
    · have hrun : Format.ensureDataset addr cache = .ok true _ := if_neg haddr
      refine ⟨none, _, ⟨map_ok hrun, fun _ _ _ => nofun, fun _ _ _ => nofun⟩, ?_⟩
      rw [record, if_neg (h.indexAddr_eq ▸ haddr)]
      exact ⟨h.maxBytes_eq, h.maxSlots_eq, rfl, zero_le, zero_le, .nil, rfl, nofun,
        h.tick_eq, nofun⟩
  | getDecompressed coord => exact exists_callSound_get h huses (.inl rfl)
  | getDecompressedAligned coord => exact exists_callSound_get h huses (.inr rfl)
  | putDecompressed coord data =>
    exact exists_callSound_put h huses (hput.imp_right fun hput => hput coord data rfl)
  | clear =>
    refine ⟨none, _, ⟨rfl, fun _ _ _ => nofun, fun _ _ _ => nofun⟩, ?_⟩
    exact ⟨h.maxBytes_eq, h.maxSlots_eq, rfl, zero_le, zero_le, .nil, rfl, nofun, rfl,
      nofun⟩

end

theorem length_uses_record (maxBytes : ℕ) (history : CacheHistory) (call : CacheCall) :
    (history.record maxBytes call).uses.length ≤ history.uses.length + 1 := by
  cases call <;> simp only [record, use] <;> (try split_ifs) <;> simp

theorem runSound_of_sound (calls : List CacheCall) (h : cache.Sound maxBytes maxSlots history)
    (huses : history.uses.length + calls.length < 2 ^ 64)
    (hput : 0 < maxSlots ∨
      ∀ coord data, .putDecompressed coord data ∈ calls → maxBytes < data.length) :
    RunSound maxBytes maxSlots calls history cache := by
  induction calls generalizing cache history with
  | nil => exact h
  | cons call calls ih =>
    rw [length_cons] at huses
    have hcall := length_uses_record maxBytes history call
    obtain ⟨found, cache', hsound, hnext⟩ := @exists_callSound _ _ _ _ h (by omega) call
      (hput.imp_right fun hput coord data heq => hput coord data (heq ▸ mem_cons_self))
    refine ⟨h, found, cache', hsound, ih hnext (by omega) ?_⟩
    exact hput.imp_right fun hput coord data hmem => hput coord data (mem_cons_of_mem _ hmem)

end

/-- A cache with slots stays sound in every run; one without slots, as long as no chunk fits. -/
theorem runSound_withCapacity (maxBytes maxSlots : ℕ) (calls : List CacheCall)
    (hcalls : calls.length < 2 ^ 64)
    (hput : 0 < maxSlots ∨
      ∀ coord data, .putDecompressed coord data ∈ calls → maxBytes < data.length) :
    RunSound maxBytes maxSlots calls ⟨none, [], []⟩ (.withCapacity maxBytes maxSlots) := by
  refine runSound_of_sound calls ?_ ((zero_add _).trans_lt hcalls) hput
  exact ⟨rfl, rfl, rfl, zero_le, zero_le, .nil, rfl, nofun, rfl, nofun⟩

theorem runSound_oneSlot :
    RunSound 4 1 [.putDecompressed [0] [1], .putDecompressed [8] [2, 3], .getDecompressed [0]]
      ⟨none, [], []⟩ (.withCapacity 4 1) :=
  runSound_withCapacity 4 1 _ (by decide) (.inl (by decide))

/-- Without slots there is none to give up for a chunk that fits. -/
theorem noSlot_panics :
    (∃ cache, putDecompressed [0] [1] (.withCapacity 4 0) = .error .panic cache) ∧
      ¬RunSound 4 0 [.putDecompressed [0] [1]] ⟨none, [], []⟩ (.withCapacity 4 0) := by
  refine ⟨⟨_, rfl⟩, ?_⟩
  rintro ⟨-, found, cache', ⟨hrun, -⟩, -⟩
  exact nomatch hrun

end ClawHdf5.Format
