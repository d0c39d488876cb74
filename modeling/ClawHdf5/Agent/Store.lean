import ClawHdf5.Agent.Wal

/-!
# Agent stores

An agent store is a snapshot file and a write-ahead log beside it, with the live caches in memory.
Operations change the caches, and log or write them in a few I/O steps: an append to the log, a
replacement of the snapshot, an emptying of the log. A step takes place as a whole or fails, and
the operation stops there with an error. The files an interrupted operation leaves are those of a
crash at that step.

Snapshots are kept by their content, which is what writing one and reading it back gives.
-/

namespace ClawHdf5.Agent

open Fallible

structure MemoryConfig where
  path : String
  agentId : String
  embedder : String
  embeddingDim : ℕ
  chunkSize : ℕ
  overlap : ℕ
  compactThreshold : UInt32
  decayFactor : UInt32
  createdAt : String
  walEnabled : Bool
  walMaxEntries : ℕ
  deriving DecidableEq

/-- The configuration after a store is read from `path`: what the file does not keep has its
default. -/
def MemoryConfig.loaded (config : MemoryConfig) (path : String) : MemoryConfig :=
  { config with
    path
    compactThreshold := 0x3e99999a -- 0.3
    decayFactor := 0x3f7ae148 -- 0.98
    walEnabled := true
    walMaxEntries := 500 }

structure H5File where
  config : MemoryConfig
  cache : MemoryCache
  sessions : SessionCache
  knowledge : KnowledgeCache
  deriving DecidableEq

/-- The files of a store: the snapshot at its path, and the log at the path with the extension
`h5.wal`. -/
structure Disk where
  h5 : Option H5File
  wal : Option Bytes
  deriving DecidableEq

/-- The last component of a path starts behind its last slash. -/
def splitDir (path : String) : List Char × List Char :=
  let name := (path.toList.reverse.takeWhile (· ≠ '/')).reverse
  (path.toList.take (path.toList.length - name.length), name)

/-- A file name without its extension. A dot at the front starts no extension. -/
def fileStem (name : List Char) : List Char :=
  let ext := (name.reverse.takeWhile (· ≠ '.')).reverse
  if name.length ≤ ext.length + 1 then name else name.take (name.length - (ext.length + 1))

def withExtension (path extension : String) : String :=
  let (dir, name) := splitDir path
  String.ofList (dir ++ (fileStem name ++ ('.' :: extension.toList)))

def walPath (path : String) : String := withExtension path "h5.wal"

example : walPath "dir/mem.h5" = "dir/mem.h5.wal" := by decide

structure HDF5Memory where
  config : MemoryConfig
  cache : MemoryCache
  sessions : SessionCache
  knowledge : KnowledgeCache
  wal : Option WalFile
  deriving DecidableEq

def HDF5Memory.snapshot (m : HDF5Memory) : H5File := ⟨m.config, m.cache, m.sessions, m.knowledge⟩

/-- An open store and its files. -/
structure Store where
  mem : HDF5Memory
  disk : Disk
  deriving DecidableEq

/-! ### Opening a store -/

section

variable (env : Env)

/-- Create a store. A log that is already there is opened as it is. -/
def create (config : MemoryConfig) (disk : Disk) : Except MemoryError Store := do
  let cache := MemoryCache.new config.embeddingDim
  let knowledge := KnowledgeCache.newWithNextId 0
  let h5 := some ⟨config, cache, [], knowledge⟩
  if config.walEnabled then
    let (wal, file) ← WalFile.openWith env.sha256 false (walPath config.path) disk.wal
    pure ⟨⟨config, cache, [], knowledge, some wal⟩, ⟨h5, some file⟩⟩
  else pure ⟨⟨config, cache, [], knowledge, none⟩, ⟨h5, disk.wal⟩⟩

def notFoundError : MemoryError := .io (.other 2)

/-- Open the store at `path`. The entries of its log are replayed over the snapshot. -/
def openInner (strict : Bool) (path : String) (disk : Disk) : Except MemoryError Store := do
  let h5 ← okOr notFoundError disk.h5
  let config := h5.config.loaded path
  match disk.wal with
  | some _ =>
    let entries ← WalFile.readEntriesWith env.sha256 strict (walPath path) disk.wal
    let cache := replayIntoCache env entries h5.cache
    let (wal, file) ← WalFile.openWith env.sha256 strict (walPath path) disk.wal
    pure ⟨⟨config, cache, h5.sessions, h5.knowledge, some wal⟩, { disk with wal := some file }⟩
  | none =>
    if config.walEnabled then
      let (wal, file) ← WalFile.openWith env.sha256 false (walPath path) disk.wal
      pure ⟨⟨config, h5.cache, h5.sessions, h5.knowledge, some wal⟩,
        { disk with wal := some file }⟩
    else pure ⟨⟨config, h5.cache, h5.sessions, h5.knowledge, none⟩, disk⟩

end

/-! ### Operations -/

/-- What an operation works on. The budget is the number of I/O steps that succeed before one
fails, or none if all do. -/
structure World extends Store where
  budget : Option ℕ

abbrev Op := EStateM MemoryError World

def ioFailure : MemoryError := .io (.other 5)

/-- One I/O step, which changes the files. -/
def io (f : Disk → Disk) : Op Unit := fun w =>
  match w.budget with
  | some 0 => .error ioFailure w
  | some (n + 1) => .ok () { w with disk := f w.disk, budget := some n }
  | none => .ok () { w with disk := f w.disk }

def modifyMem (f : HDF5Memory → HDF5Memory) : Op Unit := modify fun w => { w with mem := f w.mem }

def modifyCache (f : MemoryCache → MemoryCache) : Op Unit :=
  modifyMem fun m => { m with cache := f m.cache }

section

variable (env : Env)

/-- Replace the snapshot by the live state. -/
def writeToDisk : Op Unit := do
  let w ← get
  io fun disk => { disk with h5 := some w.mem.snapshot }

def truncateWal : Op Unit := do
  let w ← get
  match w.mem.wal with
  | none => pure ()
  | some _ =>
    let (wal, file) := WalFile.truncate env.sha256
    io fun disk => { disk with wal := some file }
    modifyMem fun m => { m with wal := some wal }

def appendSave (entry : MemoryEntry) : Op Unit := do
  let w ← get
  match w.mem.wal with
  | none => pure ()
  | some wal =>
    let (wal, file) := wal.appendSave env.sha256 (w.disk.wal.getD []) entry
    io fun disk => { disk with wal := some file }
    modifyMem fun m => { m with wal := some wal }

/-- Write the live state to disk and empty the log. -/
def flush : Op Unit := do
  writeToDisk
  truncateWal env

/-- Whether a save is to be followed by a flush: there is no log, or it is too long. -/
def HDF5Memory.needsFlush (m : HDF5Memory) : Bool :=
  m.wal.all fun wal => m.config.walMaxEntries < wal.pendingCount

def flushIfNeeded : Op Unit := do
  let w ← get
  if w.mem.needsFlush then
    flush env
    truncateWal env

def pushEntry (entry : MemoryEntry) : Op ℕ := do
  let w ← get
  modifyCache fun cache => (cache.push env entry).1
  pure (w.mem.cache.push env entry).2

def save (entry : MemoryEntry) : Op ℕ := do
  appendSave env entry
  let idx ← pushEntry env entry
  flushIfNeeded env
  pure idx

/-- Update the active entry with the same tags in place, or save a new one. -/
def saveOrUpdate (entry : MemoryEntry) : Op ℕ := do
  let w ← get
  match w.mem.cache.findByTags entry.tags with
  | some existingIdx =>
    appendSave env entry
    modifyCache fun cache => cache.update env existingIdx entry
    flushIfNeeded env
    pure existingIdx
  | none => save env entry

def pushAll : List MemoryEntry → Op (List ℕ)
  | [] => pure []
  | entry :: entries => do
    let idx ← pushEntry env entry
    let indices ← pushAll entries
    pure (idx :: indices)

def saveBatch (entries : List MemoryEntry) : Op (List ℕ) := do
  let indices ← pushAll env entries
  flush env
  pure indices

/-- Remove the tombstoned entries. -/
def compact : Op ℕ := do
  let w ← get
  let (cache, removed, _) := w.mem.cache.compact env
  modifyCache fun _ => cache
  if 0 < removed then flush env
  pure removed

/-- Tombstone an entry. The store is compacted when too many entries are tombstoned. -/
def delete (id : ℕ) : Op Unit := do
  let w ← get
  let (cache, deleted) := w.mem.cache.markDeleted id
  if deleted then
    modifyCache fun _ => cache
    flush env
    if cache.exceeds env w.mem.config.compactThreshold then
      let _ ← compact env
  else throw (.notFound s!"entry {id} not found or already deleted")

def addSession (id : String) (start stop : UInt64) (channel summary : String) (ts : UInt64) :
    Op Unit := do
  modifyMem fun m => { m with sessions := m.sessions ++ [⟨id, start, stop, channel, ts, summary⟩] }
  flush env

def addEntity (name entityType : String) (embeddingIdx : Int64) : Op UInt64 := do
  let w ← get
  let (knowledge, id) := w.mem.knowledge.addEntity name entityType embeddingIdx
  modifyMem fun m => { m with knowledge }
  flush env
  pure id

def addEntityAlias (aliasName : String) (entityId : Int64) : Op Unit := do
  modifyMem fun m => { m with knowledge := m.knowledge.addAlias env aliasName entityId }
  flush env

def addRelation (src tgt : UInt64) (relation : String) (weight : UInt32) (ts : UInt64) :
    Op Unit := do
  modifyMem fun m => { m with knowledge := m.knowledge.addRelation src tgt relation weight ts }
  flush env

/-- Write the live state to disk and empty the log. -/
def flushWal : Op Unit := do
  flush env
  truncateWal env

/-- End a session: decay all activation weights and flush. -/
def tickSession : Op Unit := do
  let w ← get
  let d := w.mem.config.decayFactor
  modifyCache fun cache => { cache with
    entries := cache.entries.map fun e =>
      { e with activationWeight := env.decay d e.activationWeight } }
  flush env
  truncateWal env

end

def HDF5Memory.walPendingCount (m : HDF5Memory) : ℕ := m.wal.elim 0 WalFile.pendingCount

end ClawHdf5.Agent
