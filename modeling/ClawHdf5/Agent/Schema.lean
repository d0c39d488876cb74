import ClawHdf5.Agent.Integrity
import ClawHdf5.Agent.Store
import ClawHdf5.Math.Cells

/-!
# The snapshot file of a store

A snapshot is an HDF5 file with the configuration in the attributes of one group and the content in
the datasets of three. Each field of the records is a dataset of its own. Strings are padded with
zero bytes to the longest of their dataset, and the embeddings are one matrix. The datasets are
read back one by one, checked for their lengths, put together and compared with the content root.

The HDF5 layer returns the datasets and attributes as they were written, so that a file is its
groups here.
-/

namespace ClawHdf5.Agent

open Bytes Cells Fallible Merkle

/-! ### Strings from bytes -/

/-- Decode a byte sequence, with a replacement character for each invalid piece. -/
def lossyChars : ℕ → Bytes → List Char
  | 0, _ => []
  | _ + 1, [] => []
  | fuel + 1, b :: rest =>
    match firstChar (b :: rest) with
    | some (c, w) => c :: lossyChars fuel ((b :: rest).drop w)
    | none => '�' :: lossyChars fuel ((b :: rest).drop (invalidLen (b :: rest)))

def fromUtf8Lossy (bs : Bytes) : String :=
  (fromUtf8 bs).getD (String.ofList (lossyChars bs.length bs))

@[simp] theorem fromUtf8Lossy_utf8Bytes (s : String) : fromUtf8Lossy (utf8Bytes s) = s := by
  rw [fromUtf8Lossy, fromUtf8_eq_some.mpr rfl, Option.getD_some]

example : fromUtf8Lossy [0x66, 0xe2, 0x82, 0x67, 0xff] = "f�g�" := by decide +kernel

/-! ### Files -/

/-- The datatypes of a snapshot: floats, integers, and strings of a fixed size padded with zero
bytes. -/
inductive Datatype
  | f32
  | f64
  | i64
  | u8
  | string (size : UInt32)
  deriving DecidableEq

structure H5Dataset where
  datatype : Datatype
  shape : List ℕ
  raw : Bytes
  deriving DecidableEq

inductive AttrValue
  | string (s : String)
  | i64 (v : Int64)
  deriving DecidableEq

structure H5Group where
  attrs : List (String × AttrValue)
  datasets : List (String × H5Dataset)
  deriving DecidableEq

abbrev H5Image := List (String × H5Group)

/-! ### Writing -/

/-- A string dataset. Each string is padded to the length of the longest one. -/
def stringDataset (strings : List String) : H5Dataset :=
  if strings.isEmpty then ⟨.string 1, [0], []⟩
  else
    let maxLen := max ((strings.map fun s => (utf8Bytes s).length).foldr max 0) 1
    ⟨.string (UInt32.ofNat maxLen), [strings.length],
      strings.flatMap fun s => resize maxLen 0 (utf8Bytes s)⟩

def f32Dataset (data : List UInt32) : H5Dataset := ⟨.f32, [data.length], data.flatMap le32⟩

def f64Dataset (data : List UInt64) : H5Dataset := ⟨.f64, [data.length], data.flatMap le64⟩

def i64Dataset (data : List Int64) : H5Dataset :=
  ⟨.i64, [data.length], data.flatMap fun v => le64 v.toUInt64⟩

def u8Dataset (data : List UInt8) : H5Dataset := ⟨.u8, [data.length], data⟩

/-- The dataset of embeddings. It is stored in chunks of whole rows, into which as many values are
copied as its shape has: more are left out, and missing ones are zero. -/
def embeddingsDataset (cache : MemoryCache) : H5Dataset :=
  let n := cache.entries.length
  let d := cache.embeddingDim
  let flat := cache.entries.flatMap (·.embedding)
  { f32Dataset (if 0 < n ∧ 0 < d then resize (n * d) 0 flat else flat) with shape := [n, d] }

def buildMemoryGroup (cache : MemoryCache) : H5Group where
  attrs := []
  datasets :=
    [("chunks", stringDataset (cache.entries.map (·.chunk))),
      ("embeddings", embeddingsDataset cache),
      ("source_channel", stringDataset (cache.entries.map (·.sourceChannel))),
      ("timestamps", f64Dataset (cache.entries.map (·.timestamp))),
      ("session_ids", stringDataset (cache.entries.map (·.sessionId))),
      ("tags", stringDataset (cache.entries.map (·.tags))),
      ("tombstones", u8Dataset (cache.entries.map (·.tombstone))),
      ("norms", f32Dataset (cache.entries.map (·.norm))),
      ("activation_weights", f32Dataset (cache.entries.map (·.activationWeight)))]

def buildSessionsGroup (sessions : SessionCache) : H5Group where
  attrs := []
  datasets :=
    [("ids", stringDataset (sessions.map (·.id))),
      ("start_idxs", i64Dataset (sessions.map (·.startIdx.toInt64))),
      ("end_idxs", i64Dataset (sessions.map (·.endIdx.toInt64))),
      ("channels", stringDataset (sessions.map (·.channel))),
      ("timestamps", f64Dataset (sessions.map (·.ts))),
      ("summaries", stringDataset (sessions.map (·.summary)))]

/-- The group of the knowledge graph. The datasets of aliases are only there if there are any. -/
def buildKnowledgeGroup (knowledge : KnowledgeCache) : H5Group where
  attrs := []
  datasets :=
    [("entity_ids", i64Dataset (knowledge.entities.map (·.id.toInt64))),
      ("entity_names", stringDataset (knowledge.entities.map (·.name))),
      ("entity_types", stringDataset (knowledge.entities.map (·.entityType))),
      ("entity_emb_idxs", i64Dataset (knowledge.entities.map (·.embeddingIdx))),
      ("relation_srcs", i64Dataset (knowledge.relations.map (·.src.toInt64))),
      ("relation_tgts", i64Dataset (knowledge.relations.map (·.tgt.toInt64))),
      ("relation_types", stringDataset (knowledge.relations.map (·.relation))),
      ("relation_weights", f32Dataset (knowledge.relations.map (·.weight))),
      ("relation_ts", f64Dataset (knowledge.relations.map (·.ts)))] ++
    if knowledge.aliases.isEmpty then []
    else [("alias_strings", stringDataset (knowledge.aliases.map (·.1))),
      ("alias_entity_ids", i64Dataset (knowledge.aliases.map (·.2)))]

def schemaVersion : String := "1.0"

/-- The attributes of a snapshot. A store without content has no root. -/
def metaAttrs (config : MemoryConfig) (rootHex : Option String) : List (String × AttrValue) :=
  [("schema_version", .string schemaVersion),
    ("created_at", .string config.createdAt),
    ("agent_id", .string config.agentId),
    ("embedder", .string config.embedder),
    ("embedding_dim", .i64 (Int64.ofNat config.embeddingDim)),
    ("chunk_size", .i64 (Int64.ofNat config.chunkSize)),
    ("overlap", .i64 (Int64.ofNat config.overlap)),
    ("edgehdf5_version", .string "0.8.0")] ++
  (rootHex.map fun hex => ("_merkle_root", AttrValue.string hex)).toList

def buildHdf5File (H : Hashers) (config : MemoryConfig) (c : Content) : H5Image :=
  [("meta", ⟨metaAttrs config (contentRootHex H c), [("_marker", u8Dataset [1])]⟩),
    ("memory", buildMemoryGroup c.memory),
    ("sessions", buildSessionsGroup c.sessions),
    ("knowledge_graph", buildKnowledgeGroup c.knowledge)]

/-! ### Reading datasets -/

/-- What the loader uses of the HDF5 layer and of floating point beyond the snapshots it writes:
conversions from another numeric type, the norm of a vector, and the debug texts of errors. -/
structure Layer where
  convertF32 : H5Dataset → Except String (List UInt32)
  convertF64 : H5Dataset → Except String (List UInt64)
  convertI64 : H5Dataset → Except String (List Int64)
  convertI32 : H5Dataset → Except String (List Int32)
  computeNorm : List UInt32 → UInt32
  debug : MerkleError → String

def pathNotFound (path : String) : String := s!"HDF5 format error: path not found: {path}"

/-- The text of the error for data that has no whole number of elements. -/
def dataSizeMismatch (actual : ℕ) : String :=
  s!"HDF5 format error: data size mismatch: expected 0 bytes, got {actual} bytes"

def readWords {α : Type} (elemSize : ℕ) (decode : Bytes → α) (raw : Bytes) :
    Except String (List α) :=
  if elemSize = 0 ∨ raw.length % elemSize ≠ 0 then .error (dataSizeMismatch raw.length)
  else .ok ((chunks elemSize raw).map decode)

def readAsStrings (size : UInt32) (raw : Bytes) : Except String (List String) :=
  if size = 0 then .ok []
  else readWords size.toNat (fun cell => fromUtf8Lossy (cell.rdropWhile (· == 0))) raw

def Datatype.name : Datatype → String
  | f32 | f64 => "FloatingPoint"
  | i64 | u8 => "FixedPoint"
  | string _ => "String"

namespace H5Dataset

variable (L : Layer) (ds : H5Dataset)

def readString : Except String (List String) :=
  match ds.datatype with
  | .string size => readAsStrings size ds.raw
  | dt => .error s!"HDF5 format error: type mismatch: expected String, got {dt.name}"

def readF32 : Except String (List UInt32) :=
  match ds.datatype with
  | .f32 => readWords 4 ofLe32 ds.raw
  | _ => L.convertF32 ds

def readF64 : Except String (List UInt64) :=
  match ds.datatype with
  | .f64 => readWords 8 ofLe64 ds.raw
  | _ => L.convertF64 ds

def readI64 : Except String (List Int64) :=
  match ds.datatype with
  | .i64 => readWords 8 (fun bs => (ofLe64 bs).toInt64) ds.raw
  | _ => L.convertI64 ds

/-- Read a dataset as 32-bit integers. The sign of a byte is extended, though it has none. -/
def readI32 : Except String (List Int32) :=
  match ds.datatype with
  | .u8 => readWords 1 (fun bs => (bs.headD 0).toInt8.toInt32) ds.raw
  | _ => L.convertI32 ds

end H5Dataset

def H5Group.dataset (group : H5Group) (name : String) : Except MemoryError H5Dataset :=
  okOr (.hdf5 s!"cannot read {name}: {pathNotFound name}") (group.datasets.lookup name)

def readStringDatasetFromGroup (group : H5Group) (name : String) :
    Except MemoryError (List String) := do
  let ds ← group.dataset name
  if ds.shape.head? = some 0 ∨ ds.shape = [] then pure []
  else ds.readString.mapError fun e => .hdf5 s!"cannot read strings from {name}: {e}"

def readNumericDataset {α : Type} (kind : String) (read : H5Dataset → Except String (List α))
    (group : H5Group) (name : String) : Except MemoryError (List α) := do
  let ds ← group.dataset name
  if ds.shape.head? = some 0 then pure []
  else (read ds).mapError fun e => .hdf5 s!"cannot read {kind} from {name}: {e}"

section

variable (L : Layer)

def readF32Dataset : H5Group → String → Except MemoryError (List UInt32) :=
  readNumericDataset "f32" (H5Dataset.readF32 L)

def readF64Dataset : H5Group → String → Except MemoryError (List UInt64) :=
  readNumericDataset "f64" (H5Dataset.readF64 L)

def readI64Dataset : H5Group → String → Except MemoryError (List Int64) :=
  readNumericDataset "i64" (H5Dataset.readI64 L)

/-- Read a dataset of bytes, which are read as integers and cut to bytes again. -/
def readU8Dataset : H5Group → String → Except MemoryError (List UInt8) :=
  readNumericDataset "u8" fun ds => (ds.readI32 L).map (List.map fun v => v.toInt8.toUInt8)

end

/-! ### Loading -/

/-- Refuse a dataset that has not one element for each record. -/
def expectLen (what : String) (found expected : ℕ) : Except MemoryError Unit :=
  reject (found ≠ expected) (.schema s!"{what}: expected {expected} elements, found {found}")

/-- A stored integer that must not be negative. -/
def nonNegative (what : String) (v : Int64) : Except MemoryError UInt64 := do
  reject (v.toInt < 0) (.schema s!"{what}: negative value {v} is not allowed")
  pure v.toUInt64

def extractStringAttr (attrs : List (String × AttrValue)) (name : String) :
    Except MemoryError String :=
  match attrs.lookup name with
  | some (.string s) => .ok s
  | _ => .error (.schema s!"missing attr: {name}")

def extractI64Attr (attrs : List (String × AttrValue)) (name : String) :
    Except MemoryError Int64 :=
  match attrs.lookup name with
  | some (.i64 v) => .ok v
  | _ => .error (.schema s!"missing attr: {name}")

/-- Read an integer attribute that must be at least `min`. -/
def extractCountAttr (attrs : List (String × AttrValue)) (name : String) (min : ℕ) :
    Except MemoryError ℕ := do
  let raw ← extractI64Attr attrs name
  reject (raw.toInt < min) (.schema s!"attr {name} must be an integer >= {min}, got {raw}")
  pure raw.toInt.toNat

/-- A dataset that is used if it could be read and has `n` elements. -/
def ofLength {α : Type} (n : ℕ) (fallback : List α) : Except MemoryError (List α) → List α
  | .ok xs => if xs.length = n then xs else fallback
  | .error _ => fallback

def H5Image.group (file : H5Image) (name : String) : Except MemoryError H5Group :=
  okOr (.schema s!"missing /{name} group: {pathNotFound name}") (file.lookup name)

section

variable (L : Layer)

/-- Load the memory entries. Norms and activation weights may be missing. -/
def loadMemoryGroup (file : H5Image) (embeddingDim : ℕ) : Except MemoryError MemoryCache := do
  let group ← H5Image.group file "memory"
  let chunkTexts ← readStringDatasetFromGroup group "chunks"
  let n := chunkTexts.length
  if n = 0 then pure (MemoryCache.new embeddingDim)
  else
    let flatEmbeddings ← readF32Dataset L group "embeddings"
    let sourceChannels ← readStringDatasetFromGroup group "source_channel"
    let timestamps ← readF64Dataset L group "timestamps"
    let sessionIds ← readStringDatasetFromGroup group "session_ids"
    let tags ← readStringDatasetFromGroup group "tags"
    let tombstones ← readU8Dataset L group "tombstones"
    reject (2 ^ 64 ≤ n * embeddingDim)
      (.schema s!"/memory: {n} entries x embedding_dim {embeddingDim} overflows")
    expectLen "/memory/embeddings" flatEmbeddings.length (n * embeddingDim)
    expectLen "/memory/source_channel" sourceChannels.length n
    expectLen "/memory/timestamps" timestamps.length n
    expectLen "/memory/session_ids" sessionIds.length n
    expectLen "/memory/tags" tags.length n
    expectLen "/memory/tombstones" tombstones.length n
    let embeddings := chunks embeddingDim flatEmbeddings
    let norms := ofLength n (embeddings.map L.computeNorm) (readF32Dataset L group "norms")
    let activationWeights := ofLength n (List.replicate n oneF32)
      (readF32Dataset L group "activation_weights")
    pure
      { entries := (List.range n).map fun i =>
          { chunk := chunkTexts.getD i ""
            embedding := embeddings.getD i []
            sourceChannel := sourceChannels.getD i ""
            timestamp := timestamps.getD i 0
            sessionId := sessionIds.getD i ""
            tags := tags.getD i ""
            tombstone := tombstones.getD i 0
            norm := norms.getD i 0
            activationWeight := activationWeights.getD i 0 }
        embeddingDim }

def loadSessionsGroup (file : H5Image) : Except MemoryError SessionCache := do
  let group ← H5Image.group file "sessions"
  let ids ← readStringDatasetFromGroup group "ids"
  if ids.isEmpty then pure []
  else
    let startIdxs ← readI64Dataset L group "start_idxs"
    let endIdxs ← readI64Dataset L group "end_idxs"
    let channels ← readStringDatasetFromGroup group "channels"
    let timestamps ← readF64Dataset L group "timestamps"
    let summaries ← readStringDatasetFromGroup group "summaries"
    let n := ids.length
    expectLen "/sessions/start_idxs" startIdxs.length n
    expectLen "/sessions/end_idxs" endIdxs.length n
    expectLen "/sessions/channels" channels.length n
    expectLen "/sessions/timestamps" timestamps.length n
    expectLen "/sessions/summaries" summaries.length n
    (List.range n).mapM fun i => do
      let startIdx ← nonNegative "/sessions/start_idxs" (startIdxs.getD i 0)
      let endIdx ← nonNegative "/sessions/end_idxs" (endIdxs.getD i 0)
      pure
        { id := ids.getD i ""
          startIdx
          endIdx
          channel := channels.getD i ""
          ts := timestamps.getD i 0
          summary := summaries.getD i "" }

/-- The number behind all stored entity numbers. -/
def loadNextId : UInt64 → List Int64 → Except MemoryError UInt64
  | nextId, [] => .ok nextId
  | nextId, raw :: rest => do
    let id ← nonNegative "/knowledge_graph/entity_ids" raw
    reject (id.toNat + 1 = 2 ^ 64) (.schema "/knowledge_graph/entity_ids: id overflow")
    loadNextId (max nextId (id + 1)) rest

def loadEntities (group : H5Group) (entityIds : List Int64) : Except MemoryError (List Entity) :=
  if entityIds.isEmpty then pure []
  else do
    let entityNames ← readStringDatasetFromGroup group "entity_names"
    let entityTypes ← readStringDatasetFromGroup group "entity_types"
    let embIdxs ← readI64Dataset L group "entity_emb_idxs"
    let n := entityIds.length
    expectLen "/knowledge_graph/entity_names" entityNames.length n
    expectLen "/knowledge_graph/entity_types" entityTypes.length n
    expectLen "/knowledge_graph/entity_emb_idxs" embIdxs.length n
    pure ((List.range n).map fun i =>
      { id := (entityIds.getD i 0).toUInt64
        name := entityNames.getD i ""
        entityType := entityTypes.getD i ""
        embeddingIdx := embIdxs.getD i 0 })

def loadRelations (group : H5Group) : Except MemoryError (List Relation) := do
  let relSrcs ← readI64Dataset L group "relation_srcs"
  if relSrcs.isEmpty then pure []
  else
    let relTgts ← readI64Dataset L group "relation_tgts"
    let relTypes ← readStringDatasetFromGroup group "relation_types"
    let relWeights ← readF32Dataset L group "relation_weights"
    let relTs ← readF64Dataset L group "relation_ts"
    let n := relSrcs.length
    expectLen "/knowledge_graph/relation_tgts" relTgts.length n
    expectLen "/knowledge_graph/relation_types" relTypes.length n
    expectLen "/knowledge_graph/relation_weights" relWeights.length n
    expectLen "/knowledge_graph/relation_ts" relTs.length n
    (List.range n).mapM fun i => do
      let src ← nonNegative "/knowledge_graph/relation_srcs" (relSrcs.getD i 0)
      let tgt ← nonNegative "/knowledge_graph/relation_tgts" (relTgts.getD i 0)
      pure
        { src
          tgt
          relation := relTypes.getD i ""
          weight := relWeights.getD i 0
          ts := relTs.getD i 0 }

/-- Load the aliases. There are none if one of their datasets cannot be read. -/
def loadAliases (group : H5Group) : Except MemoryError (List (String × Int64)) :=
  match readStringDatasetFromGroup group "alias_strings",
      readI64Dataset L group "alias_entity_ids" with
  | .ok aliasStrings, .ok aliasEntityIds => do
    expectLen "/knowledge_graph/alias_entity_ids" aliasEntityIds.length aliasStrings.length
    pure (aliasStrings.zip aliasEntityIds)
  | _, _ => pure []

def loadKnowledgeGroup (file : H5Image) : Except MemoryError KnowledgeCache := do
  let group ← H5Image.group file "knowledge_graph"
  let entityIds ← readI64Dataset L group "entity_ids"
  let nextEntityId ← loadNextId 0 entityIds
  let entities ← loadEntities L group entityIds
  let relations ← loadRelations L group
  let aliases ← loadAliases L group
  pure { entities, relations, aliases, nextEntityId }

/-- The root in the attributes of a snapshot, if there is one. -/
def storedRoot (attrs : List (String × AttrValue)) : Option String :=
  match attrs.lookup "_merkle_root" with
  | some (.string s) => some s
  | _ => none

/-- Load the configuration. What the file does not keep has its default. -/
def loadConfig (attrs : List (String × AttrValue)) : Except MemoryError MemoryConfig := do
  let version ← (extractStringAttr attrs "schema_version").mapError
    fun _ => .schema "missing schema_version attr"
  reject (version ≠ schemaVersion)
    (.schema s!"schema version mismatch: expected {schemaVersion}, got {version}")
  let createdAt ← extractStringAttr attrs "created_at"
  let agentId ← extractStringAttr attrs "agent_id"
  let embedder ← extractStringAttr attrs "embedder"
  let embeddingDim ← extractCountAttr attrs "embedding_dim" 1
  let chunkSize ← extractCountAttr attrs "chunk_size" 0
  let overlap ← extractCountAttr attrs "overlap" 0
  pure
    { path := ""
      agentId
      embedder
      embeddingDim
      chunkSize
      overlap
      compactThreshold := 0x3e99999a -- 0.3
      decayFactor := 0x3f7ae148 -- 0.98
      createdAt
      walEnabled := true
      walMaxEntries := 500 }

/-- Load a snapshot and check its content root. In strict mode there must be one. -/
def validateAndLoadImpl (H : Hashers) (file : H5Image) (strict : Bool) :
    Except MemoryError (MemoryConfig × Content) := do
  let group ← H5Image.group file "meta"
  let config ← loadConfig group.attrs
  let memory ← loadMemoryGroup L file config.embeddingDim
  let sessions ← loadSessionsGroup L file
  let knowledge ← loadKnowledgeGroup L file
  verifyContent H L.debug ⟨memory, sessions, knowledge⟩ (storedRoot group.attrs) strict
  pure (config, ⟨memory, sessions, knowledge⟩)

/-- Load a snapshot, verified if it has a root. -/
def validateAndLoad (H : Hashers) (file : H5Image) : Except MemoryError (MemoryConfig × Content) :=
  validateAndLoadImpl L H file false

/-- Load a snapshot that must have a root. -/
def validateAndLoadStrict (H : Hashers) (file : H5Image) :
    Except MemoryError (MemoryConfig × Content) :=
  validateAndLoadImpl L H file true

end

end ClawHdf5.Agent
