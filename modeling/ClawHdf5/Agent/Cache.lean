import ClawHdf5.Math.Bytes

/-!
# The caches of an agent store

The live state of an agent store: memory entries, sessions and the knowledge graph. The parallel
arrays of the memory cache, one per field, are one list of entries here, so that their lengths
agree by construction. Floating-point numbers are their bit patterns.
-/

namespace ClawHdf5.Agent

/-- What the store computes with code that is not modelled: floating-point numbers, Unicode text
and SHA-256. -/
structure Env where
  /-- The SHA-256 digest. -/
  sha256 : Bytes → Bytes.Fixed 32
  /-- The L2 norm of a vector. -/
  computeNorm : List UInt32 → UInt32
  /-- Whether `tombstoned as f32 / len as f32` exceeds a threshold that is greater than zero. -/
  exceedsThreshold : (tombstoned len : ℕ) → (threshold : UInt32) → Bool
  /-- The decayed activation weight for a decay factor. -/
  decay : (factor weight : UInt32) → UInt32
  /-- `str::to_lowercase`. -/
  toLowercase : String → String

/-- The bit pattern of the 32-bit float one. -/
def oneF32 : UInt32 := 0x3f800000

/-- A memory as the caller gives it. -/
structure MemoryEntry where
  chunk : String
  embedding : List UInt32
  sourceChannel : String
  timestamp : UInt64
  sessionId : String
  tags : String
  deriving DecidableEq

structure CacheEntry extends MemoryEntry where
  tombstone : UInt8
  norm : UInt32
  activationWeight : UInt32
  deriving DecidableEq

structure MemoryCache where
  entries : List CacheEntry
  embeddingDim : ℕ
  deriving DecidableEq

namespace MemoryCache

def new (embeddingDim : ℕ) : MemoryCache := ⟨[], embeddingDim⟩

/-- The number of entries, tombstoned ones included. -/
def len (cache : MemoryCache) : ℕ := cache.entries.length

section

variable (env : Env)

/-- What `push` caches for an entry. -/
def pushed (entry : MemoryEntry) : CacheEntry :=
  { entry with
    tombstone := 0
    norm := env.computeNorm entry.embedding
    activationWeight := oneF32 }

def push (cache : MemoryCache) (entry : MemoryEntry) : MemoryCache × ℕ :=
  ({ cache with entries := cache.entries ++ [pushed env entry] }, cache.entries.length)

/-- The first active entry with the given tags. -/
def findByTags (cache : MemoryCache) (tags : String) : Option ℕ :=
  if tags.isEmpty then none
  else cache.entries.findIdx? fun e => e.tombstone == 0 && e.tags == tags

/-- Replace what an entry says, under its tags. -/
def updated (old : CacheEntry) (entry : MemoryEntry) : CacheEntry :=
  { entry with
    tags := old.tags
    tombstone := old.tombstone
    norm := env.computeNorm entry.embedding
    activationWeight := oneF32 }

def update (cache : MemoryCache) (idx : ℕ) (entry : MemoryEntry) : MemoryCache :=
  { cache with entries := cache.entries.modify idx fun old => updated env old entry }

/-- Tombstone an active entry. Returns whether there was one. -/
def markDeleted (cache : MemoryCache) (id : ℕ) : MemoryCache × Bool :=
  match cache.entries[id]? with
  | none => (cache, false)
  | some e =>
    if e.tombstone = 0 then
      ({ cache with entries := cache.entries.set id { e with tombstone := 1 } }, true)
    else (cache, false)

/-- Whether the share of tombstoned entries exceeds the threshold. -/
def exceeds (cache : MemoryCache) (threshold : UInt32) : Bool :=
  env.exceedsThreshold (cache.entries.countP fun e => e.tombstone == 1) cache.entries.length
    threshold

/-- What compaction keeps of an entry: its norm is computed anew. -/
def renormed (e : CacheEntry) : CacheEntry := { e with norm := env.computeNorm e.embedding }

/-- Where each entry goes: entries are numbered from `next` on, without the tombstoned ones. -/
def indexMap (next : ℕ) : List CacheEntry → List (Option ℕ)
  | [] => []
  | e :: es => if e.tombstone = 0 then some next :: indexMap (next + 1) es
      else none :: indexMap next es

/-- Remove the tombstoned entries. Returns how many there were and where each entry went. -/
def compact (cache : MemoryCache) : MemoryCache × ℕ × List (Option ℕ) :=
  let kept := (cache.entries.filter fun e => e.tombstone == 0).map (renormed env)
  ({ cache with entries := kept }, cache.entries.length - kept.length, indexMap 0 cache.entries)

end

end MemoryCache

/-! ### Sessions and the knowledge graph -/

/-- A session: the range of memory entries it covers and its summary. -/
structure SessionEntry where
  id : String
  startIdx : UInt64
  endIdx : UInt64
  channel : String
  ts : UInt64
  summary : String
  deriving DecidableEq

abbrev SessionCache := List SessionEntry

/-- An entity of the knowledge graph. The index of its memory is `-1` if there is none. -/
structure Entity where
  id : UInt64
  name : String
  entityType : String
  embeddingIdx : Int64
  deriving DecidableEq

structure Relation where
  src : UInt64
  tgt : UInt64
  relation : String
  weight : UInt32
  ts : UInt64
  deriving DecidableEq

structure KnowledgeCache where
  entities : List Entity
  relations : List Relation
  aliases : List (String × Int64)
  nextEntityId : UInt64
  deriving DecidableEq

namespace KnowledgeCache

/-- An empty graph that numbers entities from `nextId` on. -/
def newWithNextId (nextId : UInt64) : KnowledgeCache := ⟨[], [], [], nextId⟩

/-- Add an entity. Returns its number. -/
def addEntity (k : KnowledgeCache) (name entityType : String) (embeddingIdx : Int64) :
    KnowledgeCache × UInt64 :=
  ({ k with
      entities := k.entities ++ [⟨k.nextEntityId, name, entityType, embeddingIdx⟩]
      nextEntityId := k.nextEntityId + 1 }, k.nextEntityId)

def addRelation (k : KnowledgeCache) (src tgt : UInt64) (relation : String) (weight : UInt32)
    (ts : UInt64) : KnowledgeCache :=
  { k with relations := k.relations ++ [⟨src, tgt, relation, weight, ts⟩] }

/-- Add an alias, in lower case. -/
def addAlias (env : Env) (k : KnowledgeCache) (aliasName : String) (entityId : Int64) :
    KnowledgeCache :=
  { k with aliases := k.aliases ++ [(env.toLowercase aliasName, entityId)] }

end KnowledgeCache

end ClawHdf5.Agent
