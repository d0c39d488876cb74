import ClawHdf5.Format.ChunkCache
import ClawHdf5.Format.ChunkedRead

/-!
# Reading chunked datasets through the cache

Three reads go through the chunk cache. The first keeps the decoded chunks; the second also watches
in which direction the chunks are visited; the third goes through the chunks of a plan. All of them
look for a decoded chunk in the cache before they read it from the file.
-/

namespace ClawHdf5.Format

open Fallible Stateful List

/-! ### The direction of a sweep -/

/-- The directions in which the chunks of a dataset are visited. -/
inductive SweepDirection
  | random
  | rowMajor
  | columnMajor
  | sliceMajor
  deriving DecidableEq

structure SweepContext where
  history : List (List ℕ)
  windowSize : ℕ
  direction : SweepDirection
  prefetchCount : ℕ
  predictedNext : List (List ℕ)
  deriving DecidableEq

/-- How often each coordinate has changed. -/
def coordChanges (history : List (List ℕ)) (ndims : ℕ) : List ℕ :=
  (range ndims).map fun d =>
    (history.zip history.tail).countP fun (prev, curr) => curr.getD d 0 ≠ prev.getD d 0

/-- The last axis with the most changes, and their number. -/
def mostChanged (changing : List ℕ) : ℕ × ℕ :=
  changing.zipIdx.foldl (fun best (changes, d) =>
    if best.2 ≤ changes then (d, changes) else best) (0, 0)

/-- The axis along which the chunks are visited, if there is one. -/
def sweepDim (history : List (List ℕ)) (ndims : ℕ) : Option ℕ :=
  if history.length < 3 ∨ ndims = 0 ∨ ∃ coord ∈ history, coord.length < ndims then none
  else
    let changing := coordChanges history ndims
    let (maxDim, maxChanges) := mostChanged changing
    let othersMax := (changing.eraseIdx maxDim).foldl max 0
    if maxChanges < (history.length - 1 + 1) / 2 then none
    else if 0 < othersMax ∧ maxChanges < othersMax * 2 then none
    else some maxDim

def sweepDirection (ndims dim : ℕ) : SweepDirection :=
  if dim = ndims - 1 then .rowMajor else if dim = 0 then .columnMajor else .sliceMajor

/-- The chunks that would follow, at the average step along the axis. -/
def predictNext (history : List (List ℕ)) (dim prefetchCount : ℕ) : List (List ℕ) :=
  let position (coord : List ℕ) : Int64 := (UInt64.ofNat (coord.getD dim 0)).toInt64
  let steps := ((history.zip history.tail).map fun (prev, curr) =>
    position curr - position prev).filter (· ≠ 0)
  let avgStep := steps.foldl (· + ·) 0 / Int64.ofNat steps.length
  if steps = [] ∨ avgStep = 0 then []
  else
    let last := history.getLastD []
    let values := (range prefetchCount).map fun i =>
      position last + avgStep * Int64.ofNat (i + 1)
    (values.takeWhile (0 ≤ ·)).map fun value => last.set dim value.toUInt64.toNat

/-- Forget the oldest chunk when the window is full. -/
def SweepContext.makeRoom (context : SweepContext) : Run (List (List ℕ)) :=
  if context.windowSize ≤ context.history.length then
    match context.history with
    | [] => .error .panic
    | _ :: rest => .ok rest
  else .ok context.history

def SweepContext.record (context : SweepContext) (coord : List ℕ) (ndims : ℕ) :
    Run SweepContext := do
  let kept ← context.makeRoom
  let history := kept ++ [coord]
  match sweepDim history ndims with
  | none => .ok { context with history := history, direction := .random, predictedNext := [] }
  | some dim => .ok { context with
      history := history
      direction := sweepDirection ndims dim
      predictedNext := predictNext history dim context.prefetchCount }

/-- A chunk can be remembered: the window has room for it, or something to forget. -/
def SweepContext.Usable (context : SweepContext) : Prop :=
  0 < context.windowSize ∨ context.history ≠ []

/-- In a context that can be used, a chunk is remembered, and the context can be used again. -/
theorem SweepContext.Usable.record {context : SweepContext} (h : context.Usable)
    (coord : List ℕ) (ndims : ℕ) :
    ∃ context', context.record coord ndims = .ok context' ∧ context'.Usable := by
  have hkept : ∃ kept, context.makeRoom = .ok kept := by
    unfold SweepContext.makeRoom
    split_ifs with hfull
    · cases hhistory : context.history with
      | nil =>
        rw [hhistory, length_nil] at hfull
        rcases h with hwindow | hne
        · omega
        · exact absurd hhistory hne
      | cons first rest => exact ⟨rest, rfl⟩
    · exact ⟨_, rfl⟩
  obtain ⟨kept, hkept⟩ := hkept
  rw [SweepContext.record, hkept, ok_bind]
  dsimp only
  have hne : kept ++ [coord] ≠ [] := append_ne_nil_of_right_ne_nil _ (cons_ne_nil _ _)
  cases sweepDim (kept ++ [coord]) ndims with
  | none => exact ⟨_, rfl, .inr hne⟩
  | some dim => exact ⟨_, rfl, .inr hne⟩

/-! ### Decoding through the cache -/

section

variable (decode : ChunkInfo → Run Bytes) (rank : ℕ)

/-- A decoded chunk from the cache, or else from the file. -/
def cachedChunk (coord : List ℕ) (info : ChunkInfo) : Cached Bytes := do
  match ← getDecompressed coord with
  | some data => pure data
  | none => do
    let data ← raise (decode info)
    putDecompressed coord data
    pure data

def decodeCached : List ChunkInfo → Cached (List Bytes)
  | [] => pure []
  | info :: chunks => do
    let data ← cachedChunk decode (info.offsets.take rank) info
    let datas ← decodeCached chunks
    pure (data :: datas)

/-- Decode chunks, and remember where they are. -/
def decodeSweep : List ChunkInfo → SweepContext → Cached (List Bytes × SweepContext)
  | [], context => pure ([], context)
  | info :: chunks, context => do
    let coord := info.offsets.take rank
    let context ← raise (context.record coord rank)
    let data ← cachedChunk decode coord info
    let (datas, context) ← decodeSweep chunks context
    pure (data :: datas, context)

variable {decode} {rank}

/-- In a context that can be used, watching the direction changes nothing else. -/
theorem SweepContext.Usable.decodeSweep_eq {context : SweepContext} (h : context.Usable)
    (chunks : List ChunkInfo) : ∃ context', decodeSweep decode rank chunks context =
      (fun datas => (datas, context')) <$> decodeCached decode rank chunks := by
  induction chunks generalizing context with
  | nil => exact ⟨context, rfl⟩
  | cons info chunks ih =>
    obtain ⟨context₁, hrecord, h₁⟩ := h.record (info.offsets.take rank) rank
    obtain ⟨context', hrest⟩ := ih h₁
    refine ⟨context', ?_⟩
    simp [decodeSweep, decodeCached, hrecord, hrest]

end

def ChunkMapping.info (mapping : ChunkMapping) : ChunkInfo :=
  ⟨mapping.fileSize, mapping.filterMask, mapping.coord, mapping.fileOffset⟩

def decodeMappings (decode : ChunkInfo → Run Bytes) : List ChunkMapping → Cached (List Bytes)
  | [] => pure []
  | mapping :: mappings => do
    let data ← cachedChunk decode mapping.coord mapping.info
    let datas ← decodeMappings decode mappings
    pure (data :: datas)

/-- A plan's chunks are decoded like those of a list. -/
theorem decodeMappings_eq {decode : ChunkInfo → Run Bytes} {rank : ℕ} {mappings : List ChunkMapping}
    (h : ∀ mapping ∈ mappings, mapping.coord.length ≤ rank) :
    decodeMappings decode mappings = decodeCached decode rank (mappings.map (·.info)) := by
  induction mappings with
  | nil => rfl
  | cons mapping mappings ih =>
    obtain ⟨hcoord, hrest⟩ := forall_mem_cons.mp h
    have htake : mapping.info.offsets.take rank = mapping.coord := take_of_length_le hcoord
    rw [map_cons, decodeMappings, decodeCached, htake, ih hrest]

/-! ### Coherent caches -/

section

variable {decode : ChunkInfo → Run Bytes} {rank : ℕ} {chunks : List ChunkInfo} {cache : ChunkCache}

/-- A slot at the coordinates of a chunk holds what would be read from the file. -/
def ChunkCache.Coherent (decode : ChunkInfo → Run Bytes) (rank : ℕ) (chunks : List ChunkInfo)
    (cache : ChunkCache) : Prop :=
  cache.SlotsHold fun coord data =>
    ∀ info ∈ chunks, info.offsets.take rank = coord → decode info = .ok data

/-- A chunk is decoded through the cache as it would be without. -/
theorem ensures_cachedChunk (hslots : 0 < cache.maxSlots)
    (hcoherent : cache.Coherent decode rank chunks) {info : ChunkInfo}
    (hinfo : ∀ info' ∈ chunks, info'.offsets.take rank = info.offsets.take rank →
      decode info' = decode info) (hmem : info ∈ chunks) :
    Ensures (fun data cache' => decode info = .ok data ∧ cache'.Coherent decode rank chunks ∧
        cache.SameDataset cache')
      (fun e cache' => decode info = .error e ∧ cache'.Coherent decode rank chunks ∧
        cache.SameDataset cache')
      (cachedChunk decode (info.offsets.take rank) info cache) := by
  refine (ensures_getDecompressed hcoherent _).seq (fun _ _ h => h.elim) ?_
  rintro found cache₁ ⟨hfound, hcoherent₁, hsame₁⟩
  cases found with
  | some data => exact ⟨hfound data rfl info hmem rfl, hcoherent₁, hsame₁⟩
  | none =>
    cases hdecode : decode info with
    | error e => exact ⟨rfl, hcoherent₁, hsame₁⟩
    | ok data =>
      have hslots₁ : 0 < cache₁.maxSlots := hsame₁.maxSlots_eq ▸ hslots
      refine (ensures_putDecompressed hslots₁ hcoherent₁ ?_).seq (fun _ _ h => h.elim) ?_
      · intro info' hinfo' hcoord
        rw [hinfo info' hinfo' hcoord, hdecode]
      · rintro - cache₂ ⟨hcoherent₂, hsame₂⟩
        exact ⟨rfl, hcoherent₂, hsame₁.trans hsame₂⟩

/-- The chunks of a list are decoded through the cache as they would be without. -/
theorem ensures_decodeCached (hslots : 0 < cache.maxSlots)
    (hcoherent : cache.Coherent decode rank chunks)
    (hdistinct : ∀ info ∈ chunks, ∀ info' ∈ chunks,
      info'.offsets.take rank = info.offsets.take rank → decode info' = decode info)
    {sub : List ChunkInfo} (hsub : ∀ info ∈ sub, info ∈ chunks) :
    Ensures (fun datas cache' => sub.mapM decode = .ok datas ∧ cache'.Coherent decode rank chunks ∧
        cache.SameDataset cache')
      (fun e cache' => sub.mapM decode = .error e ∧ cache'.Coherent decode rank chunks ∧
        cache.SameDataset cache')
      (decodeCached decode rank sub cache) := by
  induction sub generalizing cache with
  | nil => exact ⟨rfl, hcoherent, .refl cache⟩
  | cons info sub ih =>
    obtain ⟨hinfo, hrest⟩ := forall_mem_cons.mp hsub
    have hhead := ensures_cachedChunk hslots hcoherent (hdistinct info hinfo) hinfo
    refine hhead.seq ?_ ?_
    · rintro e cache₁ ⟨hdecode, h⟩
      rw [mapM_cons, hdecode]
      exact ⟨rfl, h⟩
    · rintro data cache₁ ⟨hdecode, hcoherent₁, hsame₁⟩
      have hslots₁ : 0 < cache₁.maxSlots := hsame₁.maxSlots_eq ▸ hslots
      refine (ih hslots₁ hcoherent₁ hrest).seq ?_ ?_
      · rintro e cache₂ ⟨htail, hcoherent₂, hsame₂⟩
        rw [mapM_cons, hdecode, htail]
        exact ⟨rfl, hcoherent₂, hsame₁.trans hsame₂⟩
      · rintro datas cache₂ ⟨htail, hcoherent₂, hsame₂⟩
        rw [mapM_cons, hdecode, htail]
        exact ⟨rfl, hcoherent₂, hsame₁.trans hsame₂⟩

end

end ClawHdf5.Format
