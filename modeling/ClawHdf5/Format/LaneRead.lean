import Mathlib.Algebra.Order.Floor.Div
import ClawHdf5.Format.RawRead
import ClawHdf5.Math.SortDedup

/-!
# Decompressing chunks in lanes

The chunks of a dataset are handed to lanes, which decompress them side by side. Which lane a chunk
goes to is computed from a seed, and the lanes are balanced afterwards. A lane stops at its first
chunk that fails. The lanes end in some order, and the first one that fails decides the result.
-/

namespace ClawHdf5.Format

open Fallible List SortDedup Nat Except

/-! ### Lanes -/

/-- Multiply and fold, twice. -/
def fxhash (x : UInt64) : UInt64 :=
  let k : UInt64 := 0x517cc1b727220a95
  let x := x * k
  let x := x ^^^ (x >>> 33)
  let x := x * k
  x ^^^ (x >>> 29)

/-- A hash of a seed and an index. -/
def fxhashCombine (seed index : UInt64) : UInt64 := fxhash (seed ^^^ fxhash index)

/-- How items are distributed: by hash alone, or balanced afterwards. -/
inductive PartitionMode
  | equalSize
  | workStealing
  deriving DecidableEq

def laneOf (numLanes : ℕ) (seed : UInt64) (idx : ℕ) : ℕ :=
  (fxhashCombine seed (UInt64.ofNat idx)).toNat % numLanes

def pushItem (numLanes : ℕ) (seed : UInt64) (lanes : List (List ℕ)) (idx : ℕ) :
    Run (List (List ℕ)) := do
  let lane := laneOf numLanes seed idx
  let items ← index lanes lane
  .ok (lanes.set lane (items ++ [idx]))

/-- Cut a list into pieces of the given lengths, from `start` on. -/
def cutLanes (allItems : List ℕ) : (targets : List ℕ) → (start : ℕ) → Run (List (List ℕ))
  | [], _ => .ok []
  | target :: targets, start => do
    reject (allItems.length < start + target) .panic
    let lanes ← cutLanes allItems targets (start + target)
    .ok ((allItems.drop start).take target :: lanes)

/-- The number of items of each lane after balancing. -/
def laneTargets (numItems numLanes : ℕ) : List ℕ :=
  (range numLanes).map fun i =>
    if i < numItems % numLanes then numItems / numLanes + 1 else numItems / numLanes

/-- The bytes of a lane, which is a vector, and of an item in it. -/
def laneSize : ℕ := 24
def itemSize : ℕ := 8

/-- Assign each of the items to a lane. Room for a lane's share of them is taken beforehand, which
panics from `2 ^ 63` bytes on. -/
def partition (numItems numLanes : ℕ) (seed : UInt64) (mode : PartitionMode) :
    Run (List (List ℕ)) := do
  let numLanes := max numLanes 1
  reject (2 ^ 63 ≤ numLanes * laneSize) .panic
  if numItems = 0 then .ok (replicate numLanes [])
  else do
    reject (2 ^ 63 ≤ (numItems / numLanes + 1) * itemSize) .panic
    let lanes ← (range numItems).foldlM (pushItem numLanes seed) (replicate numLanes [])
    match mode with
    | .equalSize => .ok lanes
    | .workStealing => cutLanes lanes.flatten (laneTargets numItems numLanes) 0

def partitionChunks (numChunks numLanes : ℕ) (seed : UInt64) : Run (List (List ℕ)) :=
  partition numChunks numLanes seed .workStealing

/-- There can be room for the lanes, and for the share of each. -/
def LanesFit (numItems numLanes : ℕ) : Prop :=
  max numLanes 1 * laneSize < 2 ^ 63 ∧ (numItems / max numLanes 1 + 1) * itemSize < 2 ^ 63
  deriving Decidable

section

variable {numItems numLanes : ℕ} {seed : UInt64}

/-- Appending to one lane adds an item to the lanes. -/
theorem flatten_set_append_perm {lanes : List (List ℕ)} {lane : ℕ} (h : lane < lanes.length)
    (idx : ℕ) : (lanes.set lane (lanes[lane] ++ [idx])).flatten.Perm (lanes.flatten ++ [idx]) := by
  -- the lane stands between those before it and those behind it
  have hsplit : lanes.flatten =
      (lanes.take lane).flatten ++ (lanes[lane] ++ (lanes.drop (lane + 1)).flatten) := by
    rw [← flatten_cons, ← drop_eq_getElem_cons h, ← flatten_append, take_append_drop]
  rw [set_eq_take_append_cons_drop, if_pos h, hsplit]
  simp only [flatten_append, flatten_cons, append_assoc]
  refine List.Perm.append_left _ (List.Perm.append_left _ ?_)
  exact perm_append_comm

theorem pushItem_ok (hlanes : 0 < numLanes) {lanes : List (List ℕ)}
    (hlen : lanes.length = numLanes) (idx : ℕ) :
    ∃ lanes', pushItem numLanes seed lanes idx = .ok lanes' ∧ lanes'.length = numLanes ∧
      lanes'.flatten.Perm (lanes.flatten ++ [idx]) ∧
      ∀ k, (lanes'.getD k []).length =
        (lanes.getD k []).length + if laneOf numLanes seed idx = k then 1 else 0 := by
  unfold pushItem
  have hlane : laneOf numLanes seed idx < lanes.length := by
    rw [hlen]
    exact mod_lt _ hlanes
  generalize laneOf numLanes seed idx = lane at hlane
  have hindex : (index lanes lane : Run (List ℕ)) = .ok lanes[lane] :=
    index_eq_ok.mpr (getElem?_eq_getElem hlane)
  refine ⟨lanes.set lane (lanes[lane] ++ [idx]), ?_, ?_, flatten_set_append_perm hlane idx, ?_⟩
  · dsimp only
    rw [hindex, ok_bind]
  · rw [length_set, hlen]
  · intro k
    rw [getD_eq_getElem?_getD, getElem?_set]
    split_ifs with hk
    · subst hk
      simp [hlane]
    · rfl

theorem foldlM_pushItem_ok (hlanes : 0 < numLanes) (items : List ℕ) {lanes : List (List ℕ)}
    (hlen : lanes.length = numLanes) :
    ∃ lanes', items.foldlM (pushItem numLanes seed) lanes = .ok lanes' ∧
      lanes'.length = numLanes ∧ lanes'.flatten.Perm (lanes.flatten ++ items) ∧
      ∀ k, (lanes'.getD k []).length =
        (lanes.getD k []).length + items.countP (laneOf numLanes seed · = k) := by
  induction items generalizing lanes with
  | nil => exact ⟨lanes, rfl, hlen, by rw [append_nil], fun _ => rfl⟩
  | cons idx items ih =>
    obtain ⟨lanes₁, hpush, hlength₁, hperm₁, hcount₁⟩ :=
      @pushItem_ok numLanes seed hlanes lanes hlen idx
    obtain ⟨lanes', hfold, hlen', hperm, hcount⟩ := ih hlength₁
    refine ⟨lanes', ?_, hlen', hperm.trans ?_, fun k => ?_⟩
    · rw [foldlM_cons, hpush, ok_bind, hfold]
    · rw [append_cons]
      exact hperm₁.append_right items
    · simp only [hcount, hcount₁, countP_cons, decide_eq_true_eq]
      omega

/-- Pieces that fit into a list are cut from it one behind the other. -/
theorem cutLanes_ok (allItems : List ℕ) (targets : List ℕ) (start : ℕ)
    (h : start + targets.sum = allItems.length) :
    ∃ lanes, cutLanes allItems targets start = .ok lanes ∧ lanes.flatten = allItems.drop start ∧
      lanes.map length = targets := by
  induction targets generalizing start with
  | nil =>
    rw [sum_nil] at h
    refine ⟨[], rfl, ?_, rfl⟩
    rw [flatten_nil, drop_of_length_le (by omega)]
  | cons target targets ih =>
    rw [sum_cons] at h
    obtain ⟨lanes, hcut, hflatten, hlengths⟩ := ih (start + target) (by omega)
    refine ⟨(allItems.drop start).take target :: lanes, ?_, ?_, ?_⟩
    · rw [cutLanes, reject_bind (by omega), hcut]
      rfl
    · rw [flatten_cons, hflatten, ← drop_drop, take_append_drop]
    · rw [map_cons, hlengths, length_take, length_drop, min_eq_left (by omega)]

theorem sum_laneTargets (hlanes : 0 < numLanes) (numItems : ℕ) :
    (laneTargets numItems numLanes).sum = numItems := by
  have hsum (n : ℕ) : ((range n).map fun i => if i < numItems % numLanes then
      numItems / numLanes + 1 else numItems / numLanes).sum =
        n * (numItems / numLanes) + min n (numItems % numLanes) := by
    induction n with
    | zero => simp
    | succ n ih =>
      rw [range_succ, map_append, List.sum_append, map_singleton, sum_singleton, succ_mul]
      split_ifs <;> omega
  have hmod := mod_lt numItems hlanes
  rw [laneTargets, hsum, min_eq_right hmod.le, div_add_mod]

/-- A lane has one of two sizes after balancing. -/
theorem mem_laneTargets {target : ℕ} (h : target ∈ laneTargets numItems numLanes) :
    numItems / numLanes ≤ target ∧ target ≤ numItems / numLanes + 1 ∧
      target ≤ numItems ⌈/⌉ numLanes := by
  obtain ⟨i, hi, rfl⟩ := mem_map.mp h
  rw [mem_range] at hi
  have hdiv := div_add_mod numItems numLanes
  have hround : numItems ≤ numLanes * (numItems ⌈/⌉ numLanes) := le_smul_ceilDiv (zero_lt_of_lt hi)
  have hceil : numItems / numLanes ≤ numItems ⌈/⌉ numLanes := by
    exact Nat.div_le_div_right (by omega)
  split_ifs with hextra
  · refine ⟨by omega, le_rfl, Nat.lt_of_mul_lt_mul_left (a := numLanes) ?_⟩
    omega
  · exact ⟨le_rfl, by omega, hceil⟩

/-- Lanes without room for them panic. -/
theorem partition_of_not_fit (h : ¬LanesFit numItems numLanes) (mode : PartitionMode) :
    partition numItems numLanes seed mode = .error .panic := by
  unfold LanesFit at h
  unfold partition
  dsimp only
  by_cases hlanes : 2 ^ 63 ≤ max numLanes 1 * laneSize
  · exact reject_bind_of hlanes _
  · have hitems : 2 ^ 63 ≤ (numItems / max numLanes 1 + 1) * itemSize := by omega
    have hne : numItems ≠ 0 := by
      rintro rfl
      rw [Nat.zero_div] at hitems
      exact absurd hitems (by decide)
    rw [reject_bind hlanes, if_neg hne, reject_bind_of hitems]

/-- Every item is assigned to one lane, once. The lanes have the sizes of their items by hash, or
balanced ones. -/
theorem partition_ok (hfit : LanesFit numItems numLanes) (seed : UInt64) (mode : PartitionMode) :
    ∃ lanes, partition numItems numLanes seed mode = .ok lanes ∧
      lanes.length = max numLanes 1 ∧ lanes.flatten.Perm (range numItems) ∧
      match mode with
      | .equalSize => ∀ k, (lanes.getD k []).length =
          (range numItems).countP (laneOf (max numLanes 1) seed · = k)
      | .workStealing => lanes.map length = laneTargets numItems (max numLanes 1) := by
  have hlanes : 0 < max numLanes 1 := lt_of_lt_of_le zero_lt_one (le_max_right _ _)
  obtain ⟨hroom, hshare⟩ := hfit
  unfold partition
  dsimp only
  rw [reject_bind hroom.not_ge, reject_bind hshare.not_ge]
  generalize max numLanes 1 = n at hlanes
  split_ifs with hzero
  · subst hzero
    refine ⟨_, rfl, length_replicate, by simp, ?_⟩
    cases mode with
    | equalSize =>
      intro k
      rw [getD_eq_getElem?_getD, getElem?_replicate]
      split_ifs <;> rfl
    | workStealing => simp [laneTargets]
  · obtain ⟨lanes, hfold, hlen, hperm, hcount⟩ := @foldlM_pushItem_ok n seed hlanes
      (range numItems) (replicate n []) length_replicate
    have hperm : lanes.flatten.Perm (range numItems) := by simpa using hperm
    rw [hfold]
    cases mode with
    | equalSize =>
      refine ⟨lanes, rfl, hlen, hperm, fun k => (hcount k).trans ?_⟩
      rw [getD_eq_getElem?_getD, getElem?_replicate]
      split_ifs <;> exact zero_add _
    | workStealing =>
      have hsum : 0 + (laneTargets numItems n).sum = lanes.flatten.length := by
        rw [sum_laneTargets hlanes, hperm.length_eq, length_range, zero_add]
      obtain ⟨cut, hcut, hflatten, hlengths⟩ := cutLanes_ok lanes.flatten _ 0 hsum
      refine ⟨cut, hcut, ?_, hflatten ▸ hperm, hlengths⟩
      rw [← length_map (f := length), hlengths, laneTargets, length_map, length_range]

/-- **When lanes are balanced.** Items for which there is room are distributed, each to one lane.
Lanes of at most `⌈n / lanes⌉` items are what balancing gives; without it, they are up to the
hash. -/
theorem partition_balanced_iff (numItems numLanes : ℕ) (seed : UInt64) (mode : PartitionMode) :
    (¬LanesFit numItems numLanes → partition numItems numLanes seed mode = .error .panic) ∧
    (LanesFit numItems numLanes → ∃ lanes, partition numItems numLanes seed mode = .ok lanes ∧
      lanes.length = max numLanes 1 ∧ lanes.flatten.Perm (range numItems) ∧
      (mode = .workStealing → ∀ a ∈ lanes, ∀ b ∈ lanes, a.length ≤ b.length + 1) ∧
      ((∀ lane ∈ lanes, lane.length ≤ numItems ⌈/⌉ max numLanes 1) ↔
        mode = .workStealing ∨ ∀ k < max numLanes 1,
          (range numItems).countP (laneOf (max numLanes 1) seed · = k) ≤
            numItems ⌈/⌉ max numLanes 1)) := by
  refine ⟨fun hfit => partition_of_not_fit hfit mode, fun hfit => ?_⟩
  obtain ⟨lanes, hrun, hlen, hperm, hsizes⟩ := partition_ok hfit seed mode
  refine ⟨lanes, hrun, hlen, hperm, ?_⟩
  cases mode with
  | equalSize =>
    refine ⟨nofun, ?_⟩
    simp only [reduceCtorEq, false_or, ← hsizes]
    rw [← hlen]
    constructor
    · intro h k hk
      rw [getD_eq_getElem _ _ hk]
      exact h _ (getElem_mem hk)
    · intro h lane hlane
      obtain ⟨k, hk, rfl⟩ := mem_iff_getElem.mp hlane
      rw [← getD_eq_getElem _ [] hk]
      exact h k hk
  | workStealing =>
    have hmem (lane : List ℕ) (h : lane ∈ lanes) := mem_laneTargets (hsizes ▸ mem_map_of_mem h)
    refine ⟨fun _ a ha b hb => ?_, iff_of_true (fun lane h => (hmem lane h).2.2) (.inl rfl)⟩
    exact (hmem a ha).2.1.trans (succ_le_succ (hmem b hb).1)

/-- Two items go to one of two lanes. -/
theorem partition_overfull :
    partition 2 2 0 .equalSize = .ok [[0, 1], []] ∧ 2 ⌈/⌉ max 2 1 < [0, 1].length := by
  decide +kernel

end

/-! ### Reading in lanes -/

structure DecompressedChunk where
  index : ℕ
  data : Bytes
  deriving DecidableEq

structure LaneStats where
  chunksProcessed : ℕ
  compressedBytes : ℕ
  decompressedBytes : ℕ
  deriving DecidableEq

structure PartitionStats where
  perLane : List LaneStats
  totalChunks : ℕ
  numLanes : ℕ
  deriving DecidableEq

section

variable (decompressChunk : Bytes → FilterPipeline → ℕ → ℕ → Run Bytes)
  (fileData : Bytes) (chunks : List ChunkInfo) (pipeline : FilterPipeline)
  (chunkTotalBytes elementSize : ℕ)

def laneChunk (chunk : ChunkInfo) : Run Bytes := do
  let stop := wrap (chunk.address + chunk.chunkSize)
  reject (fileData.length < stop) (.error (.unexpectedEof stop fileData.length))
  let rawChunk ← slice fileData chunk.address stop
  if chunk.filterMask = 0 then decompressChunk rawChunk pipeline chunkTotalBytes elementSize
  else .ok rawChunk

/-- The chunk with a number, with its size in the file. -/
def laneItem (i : ℕ) : Run (DecompressedChunk × ℕ) := do
  let chunk ← index chunks i
  let data ← laneChunk decompressChunk fileData pipeline chunkTotalBytes elementSize chunk
  .ok (⟨i, data⟩, chunk.chunkSize)

def LaneStats.add (stats : LaneStats) (item : DecompressedChunk × ℕ) : LaneStats where
  chunksProcessed := stats.chunksProcessed + 1
  compressedBytes := wrap (stats.compressedBytes + item.2)
  decompressedBytes := wrap (stats.decompressedBytes + item.1.data.length)

def runLane (indices : List ℕ) : Run (List DecompressedChunk × LaneStats) := do
  let items ← indices.mapM
    (laneItem decompressChunk fileData chunks pipeline chunkTotalBytes elementSize)
  .ok (items.map (·.1), items.foldl LaneStats.add ⟨0, 0, 0⟩)

/-- Decompress chunks in lanes that end in the given order. The number of lanes is the one of the
processors if there is none. -/
def decompressChunksLanePartitioned (seed : UInt64) (numLanes : Option ℕ) (parallelism : ℕ)
    (order : List ℕ) : Run (List Bytes × PartitionStats) := do
  let assignments ← partitionChunks chunks.length (numLanes.getD parallelism) seed
  let laneResults ← firstStop (assignments.map
    (runLane decompressChunk fileData chunks pipeline chunkTotalBytes elementSize)) order
  let allChunks := laneResults.flatMap (·.1)
  let ordered := (allChunks.mergeSort fun a b => a.index ≤ b.index).map (·.data)
  .ok (ordered, ⟨laneResults.map (·.2), chunks.length, assignments.length⟩)

/-! ### When the lanes return -/

/-- A chunk lies within the file and is decompressed. -/
def ChunkReadable (chunk : ChunkInfo) : Prop :=
  chunk.address + chunk.chunkSize ≤ fileData.length ∧
    (chunk.filterMask = 0 → ∃ data, decompressChunk
      ((fileData.drop chunk.address).take chunk.chunkSize) pipeline chunkTotalBytes elementSize =
        .ok data)

/-- The end of a chunk wraps around into the file, or the decompression of a chunk within the file
panics. -/
def ChunkCrashes (chunk : ChunkInfo) : Prop :=
  WrapsInto fileData chunk.address chunk.chunkSize ∨
    chunk.address + chunk.chunkSize ≤ fileData.length ∧ chunk.filterMask = 0 ∧
      decompressChunk ((fileData.drop chunk.address).take chunk.chunkSize) pipeline chunkTotalBytes
        elementSize = .error .panic

/-- The chunks that a lane can read lead it to none that crashes. -/
def LaneSafe (indices : List ℕ) : Prop :=
  ∀ before i after, indices = before ++ i :: after →
    (∀ j ∈ before, ∀ chunk ∈ chunks[j]?,
      ChunkReadable decompressChunk fileData pipeline chunkTotalBytes elementSize chunk) →
    ∀ chunk ∈ chunks[i]?,
      ¬ChunkCrashes decompressChunk fileData pipeline chunkTotalBytes elementSize chunk

end

/-- What the lanes are given. -/
structure LaneJob where
  decompressChunk : Bytes → FilterPipeline → ℕ → ℕ → Run Bytes
  fileData : Bytes
  chunks : List ChunkInfo
  pipeline : FilterPipeline
  chunkTotalBytes : ℕ
  elementSize : ℕ

namespace LaneJob

variable (job : LaneJob)

def chunk : ChunkInfo → Run Bytes :=
  laneChunk job.decompressChunk job.fileData job.pipeline job.chunkTotalBytes job.elementSize

/-- A chunk, as it is read outside of the lanes. -/
def sequentialChunk : ChunkInfo → Run Bytes :=
  chunkData job.decompressChunk job.fileData (some job.pipeline) job.chunkTotalBytes
    job.elementSize

def item : ℕ → Run (DecompressedChunk × ℕ) :=
  laneItem job.decompressChunk job.fileData job.chunks job.pipeline job.chunkTotalBytes
    job.elementSize

abbrev lane : List ℕ → Run (List DecompressedChunk × LaneStats) :=
  runLane job.decompressChunk job.fileData job.chunks job.pipeline job.chunkTotalBytes
    job.elementSize

def run : UInt64 → Option ℕ → ℕ → List ℕ → Run (List Bytes × PartitionStats) :=
  decompressChunksLanePartitioned job.decompressChunk job.fileData job.chunks job.pipeline
    job.chunkTotalBytes job.elementSize

def Readable : ChunkInfo → Prop :=
  ChunkReadable job.decompressChunk job.fileData job.pipeline job.chunkTotalBytes job.elementSize

def Crashes : ChunkInfo → Prop :=
  ChunkCrashes job.decompressChunk job.fileData job.pipeline job.chunkTotalBytes job.elementSize

def Safe : List ℕ → Prop :=
  LaneSafe job.decompressChunk job.fileData job.chunks job.pipeline job.chunkTotalBytes
    job.elementSize

/-- The bytes of a chunk that lies within the file, decompressed. -/
def decoded (chunk : ChunkInfo) : Run Bytes :=
  let raw := (job.fileData.drop chunk.address).take chunk.chunkSize
  if chunk.filterMask = 0 then
    job.decompressChunk raw job.pipeline job.chunkTotalBytes job.elementSize
  else .ok raw

/-- The file and the chunks have the sizes that their types allow. -/
structure Typed : Prop where
  file : job.fileData.length < 2 ^ 63
  chunks : ∀ chunk ∈ job.chunks, chunk.address < 2 ^ 64 ∧ chunk.chunkSize < 2 ^ 32

end LaneJob

section

variable {job : LaneJob} {chunk : ChunkInfo} {seed : UInt64} {numLanes : Option ℕ}
  {parallelism : ℕ} {order : List ℕ}

/-- What becomes of a chunk, by where its end lies. -/
theorem LaneJob.Typed.chunk_cases (h : job.Typed) (hchunk : chunk ∈ job.chunks) :
    (chunk.address + chunk.chunkSize ≤ job.fileData.length ∧ job.chunk chunk = job.decoded chunk) ∨
    (WrapsInto job.fileData chunk.address chunk.chunkSize ∧ job.chunk chunk = .error .panic) ∨
    (job.fileData.length < chunk.address + chunk.chunkSize ∧
      ¬WrapsInto job.fileData chunk.address chunk.chunkSize ∧
      ∃ e, job.chunk chunk = .error (.error e)) := by
  obtain ⟨haddress, hsize⟩ := h.chunks chunk hchunk
  have hsize' : chunk.chunkSize < 2 ^ 64 := by omega
  unfold LaneJob.chunk laneChunk WrapsInto
  rcases wrap_add_cases haddress hsize' with ⟨hlt, hwrap⟩ | ⟨hle, hwrap⟩
  · simp only [hwrap]
    by_cases hin : chunk.address + chunk.chunkSize ≤ job.fileData.length
    · left
      refine ⟨hin, ?_⟩
      rw [reject_bind (by omega), slice, if_pos ⟨le_self_add, hin⟩, Nat.add_sub_cancel_left]
      rfl
    · right
      right
      exact ⟨by omega, by omega, _, reject_bind_of (by omega) _⟩
  · simp only
    by_cases hin : chunk.address + chunk.chunkSize - 2 ^ 64 ≤ job.fileData.length
    · right
      left
      refine ⟨⟨hle, hin⟩, ?_⟩
      rw [reject_bind (by omega), slice, if_neg (by omega)]
      rfl
    · right
      right
      exact ⟨by omega, by omega, _, reject_bind_of (by omega) _⟩

/-- When a chunk is read by a lane, and when the lane survives it. -/
theorem LaneJob.Typed.chunk_iff (h : job.Typed) (hchunk : chunk ∈ job.chunks) :
    ((∃ data, job.chunk chunk = .ok data) ↔ job.Readable chunk) ∧
      (Returns (job.chunk chunk) ↔ ¬job.Crashes chunk) := by
  unfold LaneJob.Readable LaneJob.Crashes ChunkReadable ChunkCrashes
  rcases h.chunk_cases hchunk with ⟨hin, hrun⟩ | ⟨hwraps, hrun⟩ | ⟨hout, hwraps, e, hrun⟩
  · have hwraps : ¬WrapsInto job.fileData chunk.address chunk.chunkSize := by
      have := h.file
      unfold WrapsInto
      omega
    rw [hrun, LaneJob.decoded]
    by_cases hmask : chunk.filterMask = 0
    · simp only [hmask, if_true, hwraps, hin, true_and, false_or, true_imp_iff]
      exact Iff.rfl
    · simp [hmask, hwraps, hin, returns_ok]
  · rw [hrun]
    have hout : ¬chunk.address + chunk.chunkSize ≤ job.fileData.length := by
      have := h.file
      unfold WrapsInto at hwraps
      omega
    exact ⟨iff_of_false nofun fun h => hout h.1,
      iff_of_false not_returns_panic (not_not.mpr (.inl hwraps))⟩
  · rw [hrun]
    exact ⟨iff_of_false nofun fun h => not_le.mpr hout h.1,
      iff_of_true (returns_error e) (not_or.mpr ⟨hwraps, fun h => not_le.mpr hout h.1⟩)⟩

theorem LaneJob.item_eq {i : ℕ} (hi : job.chunks[i]? = some chunk) :
    job.item i = (fun data => (⟨i, data⟩, chunk.chunkSize)) <$> job.chunk chunk := by
  rw [LaneJob.item, laneItem, index_eq_ok.mpr hi]
  rfl

theorem LaneJob.Typed.returns_lane_iff (h : job.Typed) {indices : List ℕ}
    (hindices : ∀ i ∈ indices, i < job.chunks.length) :
    Returns (job.lane indices) ↔ job.Safe indices := by
  have hitem (i : ℕ) (hi : i ∈ indices) :
      ((∃ item, job.item i = .ok item) ↔ ∀ chunk ∈ job.chunks[i]?, job.Readable chunk) ∧
        (Returns (job.item i) ↔ ∀ chunk ∈ job.chunks[i]?, ¬job.Crashes chunk) := by
    have hget := getElem?_eq_getElem (hindices i hi)
    obtain ⟨hok, hreturns⟩ := h.chunk_iff (getElem_mem (hindices i hi))
    rw [job.item_eq hget, hget, returns_map, hreturns]
    simp only [Option.mem_some_iff, forall_eq', ← hok, and_true]
    constructor
    · rintro ⟨item, hitem⟩
      obtain ⟨data, hdata, -⟩ := exists_ok_of_map_eq hitem
      exact ⟨data, hdata⟩
    · rintro ⟨data, hdata⟩
      exact ⟨_, by rw [hdata]; rfl⟩
  have hloop : Returns (job.lane indices) ↔ Returns (indices.mapM job.item) := by
    rw [LaneJob.lane, runLane, returns_bind]
    exact and_iff_left fun _ _ => returns_ok _
  rw [hloop, returns_mapM]
  refine forall₄_congr fun before i after heq => ?_
  have hmem : ∀ k, k ∈ before ∨ k = i → k ∈ indices := by
    intro k hk
    rcases hk with hk | rfl <;> simp_all
  rw [(hitem i (hmem i (.inr rfl))).2]
  exact imp_congr_left (forall₂_congr fun j hj => (hitem j (hmem j (.inl hj))).1)

/-- The lanes return in every order exactly if there is room for them and none of them comes to a
chunk that crashes. -/
theorem LaneJob.Typed.returns_run_iff (h : job.Typed) :
    (∀ order, order.Perm (range (max (numLanes.getD parallelism) 1)) →
      Returns (job.run seed numLanes parallelism order)) ↔
    LanesFit job.chunks.length (numLanes.getD parallelism) ∧
      ∃ assignments, partitionChunks job.chunks.length (numLanes.getD parallelism) seed =
        .ok assignments ∧ ∀ lane ∈ assignments, job.Safe lane := by
  by_cases hfit : LanesFit job.chunks.length (numLanes.getD parallelism)
  · obtain ⟨assignments, hassign, hlen, hperm, -⟩ := partition_ok hfit seed .workStealing
    -- every number in a lane is the one of a chunk
    have hindices (lane : List ℕ) (hlane : lane ∈ assignments) (i : ℕ) (hi : i ∈ lane) :
        i < job.chunks.length :=
      mem_range.mp (hperm.mem_iff.mp (mem_flatten.mpr ⟨lane, hlane, hi⟩))
    have hrun (order : List ℕ) : Returns (job.run seed numLanes parallelism order) ↔
        Returns (firstStop (assignments.map job.lane) order) := by
      rw [LaneJob.run, decompressChunksLanePartitioned, partitionChunks, hassign, ok_bind,
        returns_bind]
      exact and_iff_left fun _ _ => returns_ok _
    have htasks : max (numLanes.getD parallelism) 1 = (assignments.map job.lane).length := by
      rw [length_map, hlen]
    have hsafe : (∀ lane ∈ assignments, Returns (job.lane lane)) ↔
        ∀ lane ∈ assignments, job.Safe lane :=
      forall₂_congr fun lane hlane => h.returns_lane_iff (hindices lane hlane)
    simp only [hrun, htasks, partitionChunks, hassign, hfit, true_and, ok.injEq, exists_eq_left']
    rw [returns_firstStop_iff, forall_mem_map, hsafe]
  · refine iff_of_false (fun hreturns => ?_) fun hright => hfit hright.1
    have hpanic := hreturns _ (Perm.refl _)
    rw [LaneJob.run, decompressChunksLanePartitioned, partitionChunks,
      partition_of_not_fit hfit] at hpanic
    exact not_returns_panic hpanic

/-! ### What the lanes return -/

/-- Sorting numbered chunks puts them in the order of their numbers. -/
theorem mergeSort_numbered {n : ℕ} {indices : List ℕ} (hperm : indices.Perm (range n))
    (f : ℕ → Bytes) :
    ((indices.map fun i => (⟨i, f i⟩ : DecompressedChunk)).mergeSort fun a b =>
      a.index ≤ b.index) = (range n).map fun i => ⟨i, f i⟩ := by
  refine List.Perm.eq_of_pairwise ?_ (pairwise_sortBy DecompressedChunk.index _) ?_
    ((perm_sortBy _ _).trans (hperm.map _))
  · -- a number determines its chunk
    intro a b ha hb hab hba
    obtain ⟨i, -, rfl⟩ := mem_map.mp ((perm_sortBy _ _).mem_iff.mp ha)
    obtain ⟨j, -, rfl⟩ := mem_map.mp hb
    obtain rfl : i = j := le_antisymm hab hba
    rfl
  · exact pairwise_map.mpr pairwise_le_range

/-- Chunks that can all be decompressed are returned in their order, whatever the lanes. -/
theorem LaneJob.run_eq_ok {datas : List Bytes} (h : job.chunks.mapM job.chunk = .ok datas)
    (hfit : LanesFit job.chunks.length (numLanes.getD parallelism)) (seed : UInt64)
    (order : List ℕ) : ∃ stats, job.run seed numLanes parallelism order = .ok (datas, stats) := by
  have hforall := mapM_eq_ok.mp h
  obtain ⟨assignments, hassign, -, hperm, -⟩ := partition_ok hfit seed .workStealing
  -- what an item becomes
  let item (i : ℕ) : DecompressedChunk × ℕ :=
    (⟨i, datas.getD i []⟩, (job.chunks.map (·.chunkSize)).getD i 0)
  have hitem (i : ℕ) (hi : i < job.chunks.length) : job.item i = .ok (item i) := by
    have hi' : i < datas.length := hforall.length_eq ▸ hi
    have hdata := hforall.get hi hi'
    rw [get_eq_getElem] at hdata
    rw [job.item_eq (getElem?_eq_getElem hi), hdata]
    simp [item, getElem?_eq_getElem hi, getElem?_eq_getElem hi']
  let laneResult (lane : List ℕ) : List DecompressedChunk × LaneStats :=
    ((lane.map item).map (·.1), (lane.map item).foldl LaneStats.add ⟨0, 0, 0⟩)
  have hlane (lane : List ℕ) (hmem : lane ∈ assignments) : job.lane lane =
      .ok (laneResult lane) := by
    have hitems : lane.mapM job.item = .ok (lane.map item) := mapM_eq fun i hi =>
      hitem i (mem_range.mp (hperm.mem_iff.mp (mem_flatten.mpr ⟨lane, hmem, hi⟩)))
    exact (congrArg (· >>= _) hitems).trans rfl
  have htasks : (assignments.map job.lane).mapM id = .ok (assignments.map laneResult) := by
    rw [mapM_map]
    exact mapM_eq hlane
  rw [LaneJob.run, decompressChunksLanePartitioned, partitionChunks, hassign, ok_bind,
    firstStop_eq_ok.mpr htasks]
  refine ⟨_, congrArg (fun ordered => ok (ordered, _)) ?_⟩
  -- the lanes together have every chunk once
  have hall : (assignments.map laneResult).flatMap (·.1) =
      assignments.flatten.map fun i => ⟨i, datas.getD i []⟩ := by
    rw [flatMap_def]
    simp [laneResult, item, Function.comp_def]
  rw [hall, mergeSort_numbered hperm]
  refine ext_getElem? fun i => ?_
  have hlen : datas.length = job.chunks.length := hforall.length_eq.symm
  rcases lt_or_ge i datas.length with hi | hi
  · simp [getElem?_eq_getElem hi, hlen ▸ hi]
  · simp [getElem?_eq_none hi, hlen ▸ hi]

/-- Lanes that return have decompressed every chunk. -/
theorem LaneJob.mapM_eq_ok_of_run {datas : List Bytes} {stats : PartitionStats}
    (hfit : LanesFit job.chunks.length (numLanes.getD parallelism))
    (h : job.run seed numLanes parallelism order = .ok (datas, stats)) :
    job.chunks.mapM job.chunk = .ok datas := by
  -- each chunk was decompressed in its lane
  obtain ⟨datas', hdatas'⟩ : ∃ datas', job.chunks.mapM job.chunk = .ok datas' := by
    obtain ⟨assignments, hassign, -, hperm, -⟩ := partition_ok hfit seed .workStealing
    rw [LaneJob.run, decompressChunksLanePartitioned, partitionChunks, hassign, ok_bind,
      bind_ok_iff] at h
    obtain ⟨results, hresults, -⟩ := h
    have hlanes := exists_mapM_eq_ok.mp ⟨results, firstStop_eq_ok.mp hresults⟩
    refine exists_mapM_eq_ok.mpr fun chunk hchunk => ?_
    obtain ⟨i, hi, rfl⟩ := mem_iff_getElem.mp hchunk
    obtain ⟨lane, hlane, hmem⟩ := mem_flatten.mp (hperm.mem_iff.mpr (mem_range.mpr hi))
    obtain ⟨result, hresult⟩ := hlanes _ (mem_map_of_mem hlane)
    obtain ⟨items, hitems, -⟩ := bind_ok_iff.mp hresult
    obtain ⟨item, hitem⟩ := exists_mapM_eq_ok.mp ⟨items, hitems⟩ i hmem
    obtain ⟨data, hdata, -⟩ := exists_ok_of_map_eq
      ((job.item_eq (getElem?_eq_getElem hi)).symm.trans hitem)
    exact ⟨data, hdata⟩
  obtain ⟨stats', h'⟩ := job.run_eq_ok hdatas' hfit seed order
  rw [(Prod.mk.inj (ok.inj (h.symm.trans h'))).1, hdatas']

/-! ### Lanes and one chunk after another -/

/-- What becomes of a chunk that is read outside of the lanes. -/
theorem LaneJob.sequentialChunk_cases (hfile : job.fileData.length < 2 ^ 63) (chunk : ChunkInfo) :
    (chunk.address + chunk.chunkSize ≤ job.fileData.length ∧
      job.sequentialChunk chunk = job.decoded chunk) ∨
    (job.fileData.length < chunk.address + chunk.chunkSize ∧
      ∃ e, job.sequentialChunk chunk = .error (.error e)) := by
  simp only [LaneJob.sequentialChunk, chunkData, storedChunk]
  by_cases hin : chunk.address + chunk.chunkSize ≤ job.fileData.length
  · left
    rw [reject_bind (by omega), reject_bind (by omega), slice,
      if_pos ⟨le_self_add, hin⟩, Nat.add_sub_cancel_left]
    exact ⟨hin, rfl⟩
  · right
    refine ⟨by omega, ?_⟩
    by_cases hlarge : 2 ^ 64 ≤ chunk.address + chunk.chunkSize
    · exact ⟨_, by rw [reject_bind_of hlarge]; rfl⟩
    · exact ⟨_, by rw [reject_bind hlarge, reject_bind_of (by omega)]; rfl⟩

/-- A lane reads a chunk as it is read outside of the lanes. -/
theorem LaneJob.Typed.chunk_eq_ok_iff (h : job.Typed) (hchunk : chunk ∈ job.chunks)
    {data : Bytes} : job.chunk chunk = .ok data ↔ job.sequentialChunk chunk = .ok data := by
  have hlane := h.chunk_cases hchunk
  rcases job.sequentialChunk_cases h.file chunk with ⟨hin, hdata⟩ | ⟨hout, e, hdata⟩
  · rcases hlane with ⟨-, hlane⟩ | ⟨⟨hwraps, -⟩, -⟩ | ⟨hout, -⟩
    · rw [hlane, hdata]
    · have := h.file
      omega
    · omega
  · rw [hdata]
    rcases hlane with ⟨hin, -⟩ | ⟨-, hlane⟩ | ⟨-, -, e', hlane⟩
    · omega
    · exact iff_of_false (hlane ▸ nofun) nofun
    · exact iff_of_false (hlane ▸ nofun) nofun

/-- The lanes return what the chunks read one after another are, and an error where that fails,
whatever the order in which they end. -/
def LaneJob.Agrees (job : LaneJob) (seed : UInt64) (numLanes : Option ℕ) (parallelism : ℕ) : Prop :=
  ∀ order, order.Perm (range (max (numLanes.getD parallelism) 1)) →
    (∀ datas, job.chunks.mapM job.sequentialChunk = .ok datas →
      ∃ stats, job.run seed numLanes parallelism order = .ok (datas, stats)) ∧
    ((∀ datas, job.chunks.mapM job.sequentialChunk ≠ .ok datas) →
      ∃ e, job.run seed numLanes parallelism order = .error (.error e))

theorem LaneJob.Typed.mapM_chunk_eq_ok_iff (h : job.Typed) {datas : List Bytes} :
    job.chunks.mapM job.sequentialChunk = .ok datas ↔ job.chunks.mapM job.chunk = .ok datas := by
  rw [mapM_eq_ok, mapM_eq_ok]
  constructor <;> intro hread <;>
    refine Forall₂.imp ?_ ((forall₂_and_left _ _).mpr ⟨fun _ hmem => hmem, hread⟩)
  · exact fun chunk data hread => (h.chunk_eq_ok_iff hread.1).mpr hread.2
  · exact fun chunk data hread => (h.chunk_eq_ok_iff hread.1).mp hread.2

/-- Lanes agree with reading one chunk after another exactly if there is room for them and none of
them comes to a chunk that crashes. -/
theorem LaneJob.Typed.agrees_iff (h : job.Typed) :
    job.Agrees seed numLanes parallelism ↔
      LanesFit job.chunks.length (numLanes.getD parallelism) ∧
        ∃ assignments, partitionChunks job.chunks.length (numLanes.getD parallelism) seed =
          .ok assignments ∧ ∀ lane ∈ assignments, job.Safe lane := by
  rw [← h.returns_run_iff]
  constructor
  · intro hagrees order horder
    obtain ⟨hok, herror⟩ := hagrees order horder
    by_cases hread : ∃ datas, job.chunks.mapM job.sequentialChunk = .ok datas
    · obtain ⟨stats, hstats⟩ := hok _ hread.choose_spec
      exact hstats ▸ returns_ok _
    · obtain ⟨e, he⟩ := herror (not_exists.mp hread)
      exact he ▸ returns_error e
  · intro hreturns order horder
    have hfit := (h.returns_run_iff.mp hreturns).1
    refine ⟨fun datas hread => job.run_eq_ok (h.mapM_chunk_eq_ok_iff.mp hread) hfit _ _, ?_⟩
    intro hfails
    have hreturn := hreturns order horder
    -- the lanes end, and not with the chunks
    cases hrun : job.run seed numLanes parallelism order with
    | ok result =>
      exact absurd (h.mapM_chunk_eq_ok_iff.mpr (job.mapM_eq_ok_of_run hfit hrun)) (hfails _)
    | error halt =>
      cases halt with
      | panic => exact absurd (hrun ▸ hreturn) not_returns_panic
      | error e => exact ⟨e, rfl⟩

/-- With a lane for each chunk, every one that crashes is come to. -/
theorem LaneJob.Typed.not_crashes_of_agrees (h : job.Typed)
    (hagrees : job.Agrees 0 (some job.chunks.length) 0) (hchunk : chunk ∈ job.chunks) :
    ¬job.Crashes chunk := by
  obtain ⟨hfit, assignments, hassign, hsafe⟩ := h.agrees_iff.mp hagrees
  obtain ⟨lanes, hlanes, -, hperm, hsizes⟩ := partition_ok hfit 0 .workStealing
  obtain rfl := ok.inj (hlanes.symm.trans hassign)
  rw [Option.getD_some] at hsizes
  -- the chunk is alone in its lane
  obtain ⟨i, hi, rfl⟩ := mem_iff_getElem.mp hchunk
  obtain ⟨lane, hlane, hmem⟩ := mem_flatten.mp (hperm.mem_iff.mpr (mem_range.mpr hi))
  have hlen : lane.length ≤ 1 := by
    have hle := (mem_laneTargets (hsizes ▸ mem_map_of_mem hlane)).2.2
    rwa [Nat.max_eq_left (by omega), ceilDiv_eq_add_pred_div, Nat.add_sub_assoc (by omega),
      add_div_left _ (by omega), div_eq_of_lt (by omega)] at hle
  obtain ⟨before, after, rfl⟩ := append_of_mem hmem
  obtain rfl : before = [] := length_eq_zero_iff.mp (by simp at hlen; omega)
  exact hsafe _ hlane [] i after rfl nofun _ (getElem?_eq_getElem hi)

/-- **When lanes agree with reading one chunk after another.** For one seed and number of lanes,
exactly if there is room for the lanes and none of them comes to a chunk that crashes; for every
seed and number of lanes with room for them, exactly if no chunk crashes. -/
theorem lanesAgree_iff (h : job.Typed) (hcount : job.chunks.length * chunkInfoSize < 2 ^ 63) :
    (∀ seed numLanes parallelism, job.Agrees seed numLanes parallelism ↔
      LanesFit job.chunks.length (numLanes.getD parallelism) ∧
        ∃ assignments, partitionChunks job.chunks.length (numLanes.getD parallelism) seed =
          .ok assignments ∧ ∀ lane ∈ assignments, job.Safe lane) ∧
    ((∀ seed numLanes parallelism, LanesFit job.chunks.length (numLanes.getD parallelism) →
      job.Agrees seed numLanes parallelism) ↔ ∀ chunk ∈ job.chunks, ¬job.Crashes chunk) := by
  refine ⟨fun seed numLanes parallelism => h.agrees_iff, fun hagrees chunk hchunk => ?_, ?_⟩
  · refine h.not_crashes_of_agrees (hagrees 0 (some job.chunks.length) 0 ?_) hchunk
    have hpos := length_pos_of_mem hchunk
    unfold chunkInfoSize at hcount
    unfold LanesFit laneSize itemSize
    rw [Option.getD_some, Nat.max_eq_left (by omega), Nat.div_self hpos]
    omega
  · intro hsafe seed numLanes parallelism hfit
    obtain ⟨assignments, hassign, -⟩ := partition_ok hfit seed .workStealing
    exact h.agrees_iff.mpr ⟨hfit, assignments, hassign,
      fun lane _ before i after _ _ chunk hchunk =>
      hsafe chunk (mem_of_getElem? hchunk)⟩

end

/-! ### All readers -/

/-- Reading at an address from the file returns a value or an error, unless the sum of the address
and the size wraps around to a position within the file. The lanes need room, and stop at the first
chunk that fails, so that a chunk with such an address counts where it is reached. -/
theorem addresses_rejected_iff (fileData : Bytes) (hfile : fileData.length < 2 ^ 63) :
    (∀ offset offsetSize lengthSize, offset < 2 ^ 64 → offsetSize < 256 → lengthSize < 256 →
      (Returns (FixedArrayHeader.parse fileData offset offsetSize lengthSize) ↔
        ¬WrapsInto fileData offset (12 + lengthSize + offsetSize)) ∧
      (Returns (ExtensibleArrayHeader.parse fileData offset offsetSize lengthSize) ↔
        ¬WrapsInto fileData offset (16 + 6 * lengthSize + offsetSize))) ∧
    (∀ (address : Option ℕ) (size : ℕ) (dataspace : Dataspace) (elemSize : ℕ),
      (∀ a ∈ address, a < 2 ^ 64) → size < 2 ^ 64 →
      (Returns (readRawDataZerocopy fileData (.contiguous address size) dataspace elemSize) ↔
        ∀ a ∈ address, ¬(HasSize dataspace elemSize size ∧ WrapsInto fileData a size)) ∧
      ∀ decompressChunk readVirtualData pipeline offsetSize lengthSize,
        (Returns (readRawDataFullImpl decompressChunk readVirtualData fileData
          (.contiguous address size) dataspace elemSize pipeline offsetSize lengthSize) ↔
            ∀ a ∈ address, ¬(HasSize dataspace elemSize size ∧ WrapsInto fileData a size))) ∧
    (∀ decompressChunk (chunks : List ChunkInfo) pipeline chunkTotalBytes elementSize seed
        numLanes parallelism,
      (∀ chunk ∈ chunks, chunk.address < 2 ^ 64 ∧ chunk.chunkSize < 2 ^ 32) →
      ((∀ order, order.Perm (range (max (numLanes.getD parallelism) 1)) →
        Returns (decompressChunksLanePartitioned decompressChunk fileData chunks pipeline
          chunkTotalBytes elementSize seed numLanes parallelism order)) ↔
        LanesFit chunks.length (numLanes.getD parallelism) ∧
          ∃ assignments, partitionChunks chunks.length (numLanes.getD parallelism) seed =
            .ok assignments ∧ ∀ lane ∈ assignments, LaneSafe decompressChunk fileData chunks
              pipeline chunkTotalBytes elementSize lane)) := by
  refine ⟨?_, ?_, ?_⟩
  · intro offset offsetSize lengthSize hoffset hos hls
    exact ⟨returns_fixedArrayHeader_iff hfile hoffset hos hls,
      returns_extensibleArrayHeader_iff hfile hoffset hos hls⟩
  · intro address size dataspace elemSize haddress hsize
    have hread := @returns_readContiguous_iff fileData size address dataspace elemSize haddress
      hsize
    refine ⟨?_, fun _ _ _ _ _ => hread⟩
    rw [← hread, readRawDataZerocopy, returns_bind, returns_bind]
    exact and_congr_right fun _ => forall₂_congr fun _ _ => returns_map
  · intro decompressChunk chunks pipeline chunkTotalBytes elementSize seed numLanes parallelism
      hchunks
    exact @LaneJob.Typed.returns_run_iff ⟨decompressChunk, fileData, chunks, pipeline,
      chunkTotalBytes, elementSize⟩ seed numLanes parallelism ⟨hfile, hchunks⟩

def zeroFile : Bytes := replicate 40 0

/-- A chunk of eight bytes that was stored without filters. -/
def eightBytes (address : ℕ) : ChunkInfo := ⟨8, 1, [0], address⟩

/-- The two lanes of one chunk end in order. -/
def runEightBytes (address : ℕ) : Run (List Bytes × PartitionStats) :=
  decompressChunksLanePartitioned (fun raw _ _ _ => .ok raw) zeroFile [eightBytes address]
    ⟨2, []⟩ 8 1 0 (some 2) 1 [0, 1]

/-- Within the file it does not crash. -/
theorem not_chunkCrashes_eightBytes {chunk : ChunkInfo} (hchunk : chunk ∈ [eightBytes 32]) :
    ¬ChunkCrashes (fun raw _ _ _ => .ok raw) zeroFile ⟨2, []⟩ 8 1 chunk := by
  obtain rfl := mem_singleton.mp hchunk
  rintro (hwraps | ⟨-, hmask, -⟩)
  · exact absurd hwraps (by decide)
  · exact absurd hmask (by decide)

theorem addresses_rejected_zeroFile :
    Returns (FixedArrayHeader.parse zeroFile 0 8 8) ∧
      Returns (ExtensibleArrayHeader.parse zeroFile (2 ^ 64 - 1) 2 8) ∧
      Returns (readRawDataZerocopy zeroFile (.contiguous (some 0) 8) ⟨.simple, [8]⟩ 1) ∧
      Returns (runEightBytes 32) := by
  obtain ⟨hheaders, hcontiguous, hlanes⟩ := addresses_rejected_iff zeroFile (by decide)
  have hlane := hlanes (fun raw _ _ _ => .ok raw) [eightBytes 32] ⟨2, []⟩ 8 1 0 (some 2) 1
    (by decide)
  refine ⟨(hheaders 0 8 8 (by decide) (by decide) (by decide)).1.mpr (by decide),
    (hheaders (2 ^ 64 - 1) 2 8 (by decide) (by decide) (by decide)).2.mpr (by decide),
    (hcontiguous (some 0) 8 ⟨.simple, [8]⟩ 1 (by simp) (by decide)).1.mpr ?_,
    hlane.mpr ⟨by decide, [[0], []], by decide +kernel, ?_⟩ [0, 1] (by decide)⟩
  · intro a ha hboth
    obtain rfl := Option.mem_some_iff.mp ha
    exact absurd hboth.2 (by decide)
  · intro lane _ before i after _ _ chunk hchunk
    exact not_chunkCrashes_eightBytes (mem_of_getElem? hchunk)

theorem lanesAgree_zeroFile :
    ∃ stats, runEightBytes 32 = .ok ([replicate 8 0], stats) := by
  have hagree := (@lanesAgree_iff ⟨fun raw _ _ _ => .ok raw, zeroFile, [eightBytes 32], ⟨2, []⟩, 8,
    1⟩ ⟨by decide, by decide⟩ (by decide)).2.mpr fun _ => not_chunkCrashes_eightBytes
  exact (hagree 0 (some 2) 1 (by decide) [0, 1] (by decide)).1 _ rfl

/-- A chunk near the end of the address space is an error when it is read by itself. -/
theorem lanes_disagree :
    chunkData (fun raw _ _ _ => .ok raw) zeroFile (some ⟨2, []⟩) 8 1 (eightBytes (2 ^ 64 - 4)) =
        fail (.overflow "chunk address + size overflows usize") ∧
      runEightBytes (2 ^ 64 - 4) = .error .panic := by
  decide +kernel

/-- Addresses near the end of the address space pass the tests, and the accesses panic. -/
theorem addresses_not_rejected :
    FixedArrayHeader.parse zeroFile (2 ^ 64 - 1) 8 8 = .error .panic ∧
      ExtensibleArrayHeader.parse zeroFile (2 ^ 64 - 40) 8 8 = .error .panic ∧
      readRawDataZerocopy zeroFile (.contiguous (some (2 ^ 64 - 1)) 8) ⟨.simple, [8]⟩ 1 =
        .error .panic ∧
      runEightBytes (2 ^ 64 - 4) = .error .panic := by
  decide +kernel

end ClawHdf5.Format
