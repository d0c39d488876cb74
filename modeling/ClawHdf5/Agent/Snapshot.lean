import Mathlib.Data.UInt
import ClawHdf5.Agent.Reopen
import ClawHdf5.Agent.Schema

/-!
# Snapshots are read back

A snapshot gives back what was written as far as the datasets can hold it: a padded cell cannot end
in a zero byte, a row of the matrix has the length of the others, and a signed integer has 63 bits
for a number. Operations that add only such records lead to stores whose snapshots are loaded, and
the content root is accepted.
-/

namespace ClawHdf5.Agent

open Bytes Cells Fallible Merkle Stateful List

variable {α β : Type} {xs : List α} {entry : MemoryEntry}

/-! ### Columns -/

/-- A string that a null-padded cell holds: it does not end in a zero byte, and its length is a
32-bit number. -/
@[mk_iff]
structure StrStorable (s : String) : Prop where
  short : (utf8Bytes s).length < 2 ^ 32
  last : (utf8Bytes s).getLast? ≠ some 0

instance decidableStrStorable (s : String) : Decidable (StrStorable s) :=
  decidable_of_iff' _ (strStorable_iff s)

section

variable {L : Layer} {group : H5Group} {name : String}

theorem readWords_flatMap {w : ℕ} (hw : 0 < w) {decode : Bytes → α} {encode : α → Bytes}
    (hlen : ∀ x ∈ xs, (encode x).length = w) (hdecode : ∀ x ∈ xs, decode (encode x) = x) :
    readWords w decode (xs.flatMap encode) = .ok xs := by
  have hcells : ¬(w = 0 ∨ (xs.flatMap encode).length % w ≠ 0) := by
    rw [length_column hlen, Nat.mul_mod_left]
    omega
  rw [readWords, if_neg hcells, chunks_flatMap hw hlen, map_map]
  congr 1
  exact (map_congr_left hdecode).trans (map_id' xs)

/-- Strings are read back from their padded cells. -/
theorem readString_stringDataset {strings : List String} (hne : strings ≠ [])
    (h : ∀ s ∈ strings, StrStorable s) : (stringDataset strings).readString = .ok strings := by
  let maxLen := max ((strings.map fun s => (utf8Bytes s).length).foldr max 0) 1
  have hlt : maxLen < 2 ^ 32 := by
    have hall : (strings.map fun s => (utf8Bytes s).length).foldr max 0 ≤ 2 ^ 32 - 1 := by
      refine max_le_of_forall_le _ _ fun n hn => ?_
      obtain ⟨s, hs, rfl⟩ := mem_map.mp hn
      exact Nat.le_sub_one_of_lt (h s hs).short
    omega
  have hsize : (UInt32.ofNat maxLen).toNat = maxLen := by
    exact Nat.mod_eq_of_lt hlt
  have hpos : 0 < maxLen := lt_of_lt_of_le zero_lt_one (le_max_right _ _)
  have hsize0 : UInt32.ofNat maxLen ≠ 0 := by
    intro h0
    rw [h0, UInt32.toNat_zero] at hsize
    omega
  have hds : stringDataset strings = ⟨.string (UInt32.ofNat maxLen), [strings.length],
      strings.flatMap fun s => resize maxLen 0 (utf8Bytes s)⟩ :=
    if_neg (by simpa using hne)
  rw [hds]
  change readAsStrings _ _ = _
  rw [readAsStrings, if_neg hsize0, hsize]
  refine readWords_flatMap hpos (fun s _ => length_resize _ _ _) fun s hs => ?_
  -- no string is longer than the cell, so that only zero bytes are taken off
  have hle : (utf8Bytes s).length ≤ maxLen :=
    le_max_of_le_left (le_max_of_le' 0 (mem_map.mpr ⟨s, hs, rfl⟩) le_rfl)
  rw [rdropWhile_resize (by decide) hle, fromUtf8Lossy_utf8Bytes]
  intro b hb
  exact beq_eq_false_iff_ne.mpr fun h0 => (h s hs).last (h0 ▸ hb)

/-- A column of storable strings is read back. -/
theorem readStrings_eq {P : α → Prop} {f : α → String}
    (hds : group.datasets.lookup name = some (stringDataset (xs.map f))) (h : ∀ x ∈ xs, P x)
    (hf : ∀ x, P x → StrStorable (f x)) :
    readStringDatasetFromGroup group name = .ok (xs.map f) := by
  rw [readStringDatasetFromGroup, H5Group.dataset, hds, okOr, ok_bind]
  cases xs with
  | nil => rfl
  | cons x xs =>
    rw [readString_stringDataset (by simp)
      (forall_mem_map.mpr fun x hx => hf x (h x hx))]
    rfl

theorem readNumericDataset_eq {kind : String} {read : H5Dataset → Except String (List α)}
    {ds : H5Dataset} {n : ℕ} {dims : List ℕ} (hds : group.datasets.lookup name = some ds)
    (hshape : ds.shape = n :: dims) (hempty : n = 0 → xs = []) (hread : read ds = .ok xs) :
    readNumericDataset kind read group name = .ok xs := by
  rw [readNumericDataset, H5Group.dataset, hds, okOr, ok_bind, hshape]
  split_ifs with h
  · rw [hempty (Option.some.inj h)]
    rfl
  · rw [hread]
    rfl

theorem readF32_f32Dataset (xs : List UInt32) : (f32Dataset xs).readF32 L = .ok xs :=
  readWords_flatMap (by omega) (fun x _ => length_le32 x) fun x _ => ofLe32_le32 x

theorem readF32Dataset_eq {xs : List UInt32}
    (hds : group.datasets.lookup name = some (f32Dataset xs)) :
    readF32Dataset L group name = .ok xs :=
  readNumericDataset_eq hds rfl eq_nil_of_length_eq_zero (readF32_f32Dataset xs)

theorem readF64Dataset_eq {xs : List UInt64}
    (hds : group.datasets.lookup name = some (f64Dataset xs)) :
    readF64Dataset L group name = .ok xs :=
  readNumericDataset_eq hds rfl eq_nil_of_length_eq_zero
    (readWords_flatMap (by omega) (fun x _ => length_le64 x) fun x _ => ofLe64_le64 x)

theorem readI64Dataset_eq {xs : List Int64}
    (hds : group.datasets.lookup name = some (i64Dataset xs)) :
    readI64Dataset L group name = .ok xs := by
  refine readNumericDataset_eq hds rfl eq_nil_of_length_eq_zero
    (readWords_flatMap (by omega) (fun x _ => length_le64 _) fun x _ => ?_)
  rw [ofLe64_le64]
  rfl

theorem toUInt8_toInt32 (b : UInt8) : b.toInt8.toInt32.toInt8.toUInt8 = b := by
  rcases b with ⟨v⟩
  revert v
  decide +kernel

theorem readU8Dataset_eq {xs : List UInt8}
    (hds : group.datasets.lookup name = some (u8Dataset xs)) :
    readU8Dataset L group name = .ok xs := by
  refine readNumericDataset_eq hds rfl eq_nil_of_length_eq_zero ?_
  have hread : (u8Dataset xs).readI32 L = .ok (xs.map fun b => b.toInt8.toInt32) := by
    have hcells : ¬(1 = 0 ∨ xs.length % 1 ≠ 0) := by omega
    have hraw : xs = xs.flatMap fun b => [b] := by simp
    change readWords 1 _ xs = _
    rw [readWords, if_neg hcells]
    nth_rewrite 1 [hraw]
    rw [chunks_flatMap zero_lt_one fun _ _ => rfl, map_map]
    rfl
  rw [hread]
  change Except.ok _ = _
  rw [map_map]
  congr 1
  exact (map_congr_left fun b _ => toUInt8_toInt32 b).trans (map_id' xs)

end

/-! ### Contents that are read back -/

/-- An entry whose strings can be stored and whose embedding is a row of the matrix. -/
@[mk_iff]
structure MemoryEntry.Storable (dim : ℕ) (e : MemoryEntry) : Prop where
  chunk : StrStorable e.chunk
  embedding : e.embedding.length = dim
  sourceChannel : StrStorable e.sourceChannel
  sessionId : StrStorable e.sessionId
  tags : StrStorable e.tags

instance decidableEntryStorable (dim : ℕ) (e : MemoryEntry) : Decidable (e.Storable dim) :=
  decidable_of_iff' _ (MemoryEntry.storable_iff dim e)

/-- A session whose strings can be stored and whose indices are no negative integers. -/
@[mk_iff]
structure SessionEntry.Storable (e : SessionEntry) : Prop where
  id : StrStorable e.id
  startIdx : e.startIdx.toNat < 2 ^ 63
  endIdx : e.endIdx.toNat < 2 ^ 63
  channel : StrStorable e.channel
  summary : StrStorable e.summary

instance decidableSessionStorable (e : SessionEntry) : Decidable e.Storable :=
  decidable_of_iff' _ (SessionEntry.storable_iff e)

/-- An entity whose strings can be stored and whose number is no negative integer. -/
@[mk_iff]
structure Entity.Storable (e : Entity) : Prop where
  id : e.id.toNat < 2 ^ 63
  name : StrStorable e.name
  entityType : StrStorable e.entityType

instance decidableEntityStorable (e : Entity) : Decidable e.Storable :=
  decidable_of_iff' _ (Entity.storable_iff e)

/-- A relation whose text can be stored and whose ends are no negative integers. -/
@[mk_iff]
structure Relation.Storable (r : Relation) : Prop where
  src : r.src.toNat < 2 ^ 63
  tgt : r.tgt.toNat < 2 ^ 63
  relation : StrStorable r.relation

instance decidableRelationStorable (r : Relation) : Decidable r.Storable :=
  decidable_of_iff' _ (Relation.storable_iff r)

/-- A cache for embeddings of length `dim`, all of whose entries can be stored. -/
structure MemoryCache.Storable (dim : ℕ) (c : MemoryCache) : Prop where
  dim_eq : c.embeddingDim = dim
  entries : ∀ e ∈ c.entries, e.toMemoryEntry.Storable dim

structure Content.Storable (dim : ℕ) (c : Content) : Prop where
  memory : c.memory.Storable dim
  sessions : ∀ e ∈ c.sessions, e.Storable
  entities : ∀ e ∈ c.knowledge.entities, e.Storable
  relations : ∀ r ∈ c.knowledge.relations, r.Storable
  aliases : ∀ a ∈ c.knowledge.aliases, StrStorable a.1

theorem map_range_length {g : ℕ → β} {f : α → β} (h : ∀ i (hi : i < xs.length), g i = f xs[i]) :
    (range xs.length).map g = xs.map f := by
  refine ext_getElem (by simp) fun i hi _ => ?_
  rw [length_map, length_range] at hi
  rw [getElem_map, getElem_range, getElem_map, h i hi]

theorem mapM_range_length {ε : Type} {xs : List β} {f : ℕ → Except ε β}
    (h : ∀ i (hi : i < xs.length), f i = .ok xs[i]) : (range xs.length).mapM f = .ok xs := by
  refine mapM_eq_ok.mpr (forall₂_iff_get.mpr ⟨length_range, fun i _ hi => ?_⟩)
  rw [get_eq_getElem, getElem_range]
  exact h i hi

@[simp] theorem getD_map_of_lt {f : α → β} {d : β} {i : ℕ} (hi : i < xs.length) :
    (xs.map f).getD i d = f xs[i] := by
  simp [hi]

@[simp] theorem expectLen_self (what : String) (n : ℕ) : expectLen what n n = .ok () :=
  reject_of_not (not_not.mpr rfl)

section

variable {L : Layer} {H : Hashers} {config : MemoryConfig} {c : Content} {dim : ℕ}

theorem loadMemoryGroup_build (hdim : 0 < dim) (hmemory : c.memory.Storable dim)
    (halloc : c.memory.entries.length * dim < 2 ^ 64) :
    loadMemoryGroup L (buildHdf5File H config c) dim = .ok ⟨c.memory.entries, dim⟩ := by
  obtain ⟨hdim_eq, h⟩ := hmemory
  let group := buildMemoryGroup c.memory
  have hchunks : readStringDatasetFromGroup group "chunks" = .ok _ :=
    readStrings_eq rfl h fun _ h => h.chunk
  have hchannels : readStringDatasetFromGroup group "source_channel" = .ok _ :=
    readStrings_eq rfl h fun _ h => h.sourceChannel
  have hsessions : readStringDatasetFromGroup group "session_ids" = .ok _ :=
    readStrings_eq rfl h fun _ h => h.sessionId
  have htags : readStringDatasetFromGroup group "tags" = .ok _ :=
    readStrings_eq rfl h fun _ h => h.tags
  have hflat : (c.memory.entries.flatMap (·.embedding)).length = c.memory.entries.length * dim :=
    length_column fun e he => (h e he).embedding
  have hembeddings : readF32Dataset L group "embeddings" =
      .ok (c.memory.entries.flatMap (·.embedding)) := by
    refine readNumericDataset_eq rfl rfl (fun h0 => ?_) ?_
    · rw [eq_nil_of_length_eq_zero h0, flatMap_nil]
    · -- there are as many values as the shape has
      refine (@readF32_f32Dataset L _).trans (congrArg Except.ok ?_)
      rw [hdim_eq, ← hflat, resize_length, ite_self]
  have htimestamps : readF64Dataset L group "timestamps" = .ok _ := readF64Dataset_eq rfl
  have htombstones : readU8Dataset L group "tombstones" = .ok _ := readU8Dataset_eq rfl
  have hnorms : readF32Dataset L group "norms" = .ok _ := readF32Dataset_eq rfl
  have hweights : readF32Dataset L group "activation_weights" = .ok _ := readF32Dataset_eq rfl
  have hgroup : H5Image.group (buildHdf5File H config c) "memory" = .ok group := rfl
  rw [loadMemoryGroup, hgroup, ok_bind, hchunks, ok_bind]
  dsimp only
  split_ifs with hn
  · rw [length_map, length_eq_zero_iff] at hn
    rw [hn]
    rfl
  · simp only [hembeddings, hchannels, htimestamps, hsessions, htags, htombstones, hnorms,
      hweights, ok_bind, length_map, hflat, expectLen_self, ofLength, if_true,
      reject_of_not (not_le.mpr halloc), chunks_flatMap hdim fun e he => (h e he).embedding]
    congr 2
    refine (map_range_length fun i hi => ?_).trans (map_id' _)
    simp only [getD_map_of_lt hi]

/-- A number below `2 ^ 63` is read back from the signed integer it is stored as. -/
theorem nonNegative_toInt64 (what : String) {x : UInt64} (hx : x.toNat < 2 ^ 63) :
    nonNegative what x.toInt64 = .ok x := by
  have hnonneg : ¬x.toInt64.toInt < 0 := by
    have hofNat : x.toInt64 = Int64.ofNat x.toNat := by
      nth_rewrite 1 [← UInt64.ofNat_toNat (x := x)]
      rfl
    rw [hofNat, Int64.toInt_ofNat_of_lt hx]
    omega
  rw [nonNegative, reject_of_not hnonneg]
  rfl

theorem loadSessionsGroup_build (h : ∀ e ∈ c.sessions, e.Storable) :
    loadSessionsGroup L (buildHdf5File H config c) = .ok c.sessions := by
  let group := buildSessionsGroup c.sessions
  have hids : readStringDatasetFromGroup group "ids" = .ok _ :=
    readStrings_eq rfl h fun _ h => h.id
  have hstarts : readI64Dataset L group "start_idxs" = .ok _ := readI64Dataset_eq rfl
  have hends : readI64Dataset L group "end_idxs" = .ok _ := readI64Dataset_eq rfl
  have hchannels : readStringDatasetFromGroup group "channels" = .ok _ :=
    readStrings_eq rfl h fun _ h => h.channel
  have htimestamps : readF64Dataset L group "timestamps" = .ok _ := readF64Dataset_eq rfl
  have hsummaries : readStringDatasetFromGroup group "summaries" = .ok _ :=
    readStrings_eq rfl h fun _ h => h.summary
  have hgroup : H5Image.group (buildHdf5File H config c) "sessions" = .ok group := rfl
  rw [loadSessionsGroup, hgroup, ok_bind, hids, ok_bind]
  split_ifs with hn
  · rw [List.isEmpty_iff, map_eq_nil_iff] at hn
    rw [hn]
    rfl
  · simp only [hstarts, hends, hchannels, htimestamps, hsummaries, ok_bind, length_map,
      expectLen_self]
    refine mapM_range_length fun i hi => ?_
    have he := h _ (getElem_mem hi)
    simp only [getD_map_of_lt hi, nonNegative_toInt64 _ he.startIdx,
      nonNegative_toInt64 _ he.endIdx]
    rfl

/-- The number behind all entities. -/
def nextIdOf (entities : List Entity) : UInt64 :=
  entities.foldl (fun nextId e => max nextId (e.id + 1)) 0

theorem loadNextId_toInt64 {entities : List Entity} (h : ∀ e ∈ entities, e.Storable)
    (nextId : UInt64) : loadNextId nextId (entities.map (·.id.toInt64)) =
      .ok (entities.foldl (fun nextId e => max nextId (e.id + 1)) nextId) := by
  induction entities generalizing nextId with
  | nil => rfl
  | cons e es ih =>
    obtain ⟨he, hes⟩ := forall_mem_cons.mp h
    have hlt := he.id
    rw [map_cons, loadNextId, nonNegative_toInt64 _ hlt, ok_bind, reject_bind (by omega), ih hes]
    rfl

section

variable {k : KnowledgeCache}

theorem loadEntities_build (h : ∀ e ∈ k.entities, e.Storable) :
    loadEntities L (buildKnowledgeGroup k) (k.entities.map (·.id.toInt64)) = .ok k.entities := by
  have hnames : readStringDatasetFromGroup (buildKnowledgeGroup k) "entity_names" = .ok _ :=
    readStrings_eq rfl h fun _ h => h.name
  have htypes : readStringDatasetFromGroup (buildKnowledgeGroup k) "entity_types" = .ok _ :=
    readStrings_eq rfl h fun _ h => h.entityType
  have hidxs : readI64Dataset L (buildKnowledgeGroup k) "entity_emb_idxs" = .ok _ :=
    readI64Dataset_eq rfl
  rw [loadEntities]
  split_ifs with hn
  · rw [List.isEmpty_iff, map_eq_nil_iff] at hn
    rw [hn]
    rfl
  · simp only [hnames, htypes, hidxs, ok_bind, length_map, expectLen_self]
    congr 1
    refine (map_range_length fun i hi => ?_).trans (map_id' _)
    simp only [getD_map_of_lt hi]
    rfl

theorem loadRelations_build (h : ∀ r ∈ k.relations, r.Storable) :
    loadRelations L (buildKnowledgeGroup k) = .ok k.relations := by
  have hsrcs : readI64Dataset L (buildKnowledgeGroup k) "relation_srcs" = .ok _ :=
    readI64Dataset_eq rfl
  have htgts : readI64Dataset L (buildKnowledgeGroup k) "relation_tgts" = .ok _ :=
    readI64Dataset_eq rfl
  have htypes : readStringDatasetFromGroup (buildKnowledgeGroup k) "relation_types" = .ok _ :=
    readStrings_eq rfl h fun _ h => h.relation
  have hweights : readF32Dataset L (buildKnowledgeGroup k) "relation_weights" = .ok _ :=
    readF32Dataset_eq rfl
  have hts : readF64Dataset L (buildKnowledgeGroup k) "relation_ts" = .ok _ := readF64Dataset_eq rfl
  rw [loadRelations, hsrcs, ok_bind]
  split_ifs with hn
  · rw [List.isEmpty_iff, map_eq_nil_iff] at hn
    rw [hn]
    rfl
  · simp only [htgts, htypes, hweights, hts, ok_bind, length_map, expectLen_self]
    refine mapM_range_length fun i hi => ?_
    have hr := h _ (getElem_mem hi)
    simp only [getD_map_of_lt hi, nonNegative_toInt64 _ hr.src, nonNegative_toInt64 _ hr.tgt]
    rfl

theorem loadAliases_build (h : ∀ a ∈ k.aliases, StrStorable a.1) :
    loadAliases L (buildKnowledgeGroup k) = .ok k.aliases := by
  rcases k with ⟨entities, relations, aliases, nextEntityId⟩
  cases aliases with
  | nil => rfl
  | cons a as =>
    have hstrings : readStringDatasetFromGroup
        (buildKnowledgeGroup ⟨entities, relations, a :: as, nextEntityId⟩) "alias_strings" =
          .ok _ :=
      readStrings_eq rfl h fun _ => id
    have hids : readI64Dataset L
        (buildKnowledgeGroup ⟨entities, relations, a :: as, nextEntityId⟩) "alias_entity_ids" =
          .ok _ :=
      readI64Dataset_eq rfl
    rw [loadAliases, hstrings, hids]
    simp only [length_map, expectLen_self]
    rw [← unzip_fst, ← unzip_snd, zip_unzip]
    rfl

end

theorem loadKnowledgeGroup_build (hentities : ∀ e ∈ c.knowledge.entities, e.Storable)
    (hrelations : ∀ r ∈ c.knowledge.relations, r.Storable)
    (haliases : ∀ a ∈ c.knowledge.aliases, StrStorable a.1) :
    loadKnowledgeGroup L (buildHdf5File H config c) =
      .ok { c.knowledge with nextEntityId := nextIdOf c.knowledge.entities } := by
  have hgroup : H5Image.group (buildHdf5File H config c) "knowledge_graph" =
      .ok (buildKnowledgeGroup c.knowledge) := rfl
  have hids : readI64Dataset L (buildKnowledgeGroup c.knowledge) "entity_ids" = .ok _ :=
    readI64Dataset_eq rfl
  rw [loadKnowledgeGroup, hgroup, ok_bind, hids, ok_bind, loadNextId_toInt64 hentities,
    loadEntities_build hentities, loadRelations_build hrelations, loadAliases_build haliases]
  rfl

/-- A configuration whose numbers are no negative integers, with embeddings that are not empty. -/
@[mk_iff]
structure MemoryConfig.Storable (config : MemoryConfig) : Prop where
  dim_pos : 0 < config.embeddingDim
  dim_lt : config.embeddingDim < 2 ^ 63
  chunkSize_lt : config.chunkSize < 2 ^ 63
  overlap_lt : config.overlap < 2 ^ 63

instance decidableConfigStorable (config : MemoryConfig) : Decidable config.Storable :=
  decidable_of_iff' _ (MemoryConfig.storable_iff config)

theorem extractCountAttr_eq {attrs : List (String × AttrValue)} {name : String} {min n : ℕ}
    (hattr : attrs.lookup name = some (.i64 (Int64.ofNat n))) (hmin : min ≤ n) (hn : n < 2 ^ 63) :
    extractCountAttr attrs name min = .ok n := by
  have hraw : extractI64Attr attrs name = .ok (Int64.ofNat n) := by
    rw [extractI64Attr, hattr]
  rw [extractCountAttr, hraw, ok_bind, Int64.toInt_ofNat_of_lt hn, reject_bind (by omega)]
  rfl

theorem loadConfig_metaAttrs (h : config.Storable) (rootHex : Option String) :
    loadConfig (metaAttrs config rootHex) = .ok (config.loaded "") := by
  have hdim : extractCountAttr (metaAttrs config rootHex) "embedding_dim" 1 = .ok _ :=
    extractCountAttr_eq rfl h.dim_pos h.dim_lt
  have hchunk : extractCountAttr (metaAttrs config rootHex) "chunk_size" 0 = .ok _ :=
    extractCountAttr_eq rfl zero_le h.chunkSize_lt
  have hoverlap : extractCountAttr (metaAttrs config rootHex) "overlap" 0 = .ok _ :=
    extractCountAttr_eq rfl zero_le h.overlap_lt
  simp only [loadConfig, hdim, hchunk, hoverlap, ok_bind]
  rfl

theorem storedRoot_metaAttrs (rootHex : Option String) :
    storedRoot (metaAttrs config rootHex) = rootHex := by
  cases rootHex <;> rfl

/-- What a snapshot holds of a content. The numbering of entities goes on behind the last one. -/
def Content.reloaded (dim : ℕ) (c : Content) : Content where
  memory := ⟨c.memory.entries, dim⟩
  sessions := c.sessions
  knowledge := { c.knowledge with nextEntityId := nextIdOf c.knowledge.entities }

theorem Content.covers_reloaded (dim : ℕ) (c : Content) : (c.reloaded dim).Covers c :=
  ⟨rfl, rfl, rfl, rfl, rfl⟩

theorem contentRootHex_isSome : (contentRootHex H c).isSome = !c.leaves.isEmpty := by
  rw [contentRootHex, buildAttr_eq]
  cases c.leaves.isEmpty <;> rfl

/-- The snapshot of a storable content is loaded, except that strict mode refuses one without
content, which has no root. -/
theorem validateAndLoadImpl_build (hconfig : config.Storable) (h : c.Storable config.embeddingDim)
    (halloc : c.memory.entries.length * config.embeddingDim < 2 ^ 64) (strict : Bool) :
    validateAndLoadImpl L H (buildHdf5File H config c) strict =
      if strict && c.leaves.isEmpty then .error (.integrity missingRootMessage)
      else .ok (config.loaded "", c.reloaded config.embeddingDim) := by
  have hgroup : H5Image.group (buildHdf5File H config c) "meta" =
      .ok ⟨metaAttrs config (contentRootHex H c), [("_marker", u8Dataset [1])]⟩ := rfl
  have hmemory : loadMemoryGroup L (buildHdf5File H config c) (config.loaded "").embeddingDim =
      .ok ⟨c.memory.entries, config.embeddingDim⟩ :=
    loadMemoryGroup_build hconfig.dim_pos h.memory halloc
  simp only [validateAndLoadImpl, hgroup, ok_bind, loadConfig_metaAttrs hconfig, hmemory,
    loadSessionsGroup_build h.sessions,
    loadKnowledgeGroup_build h.entities h.relations h.aliases, storedRoot_metaAttrs]
  change (verifyContent H L.debug (c.reloaded config.embeddingDim) _ _ >>= _) = _
  cases hroot : contentRootHex H c with
  | none =>
    have hempty := @contentRootHex_isSome H c
    rw [hroot, Option.isSome_none, eq_comm, Bool.not_eq_false'] at hempty
    rw [hempty]
    cases strict <;> rfl
  | some hex =>
    have hempty := @contentRootHex_isSome H c
    rw [hroot, Option.isSome_some, eq_comm, Bool.not_eq_true'] at hempty
    have hleaves : (c.reloaded config.embeddingDim).leaves = c.leaves := rfl
    rw [verifyContent_ok hleaves hroot, hempty, Bool.and_false]
    rfl

end

/-! ### Operations keep the content storable -/

def HDF5Memory.content (m : HDF5Memory) : Content := ⟨m.cache, m.sessions, m.knowledge⟩

/-- The operations that change the content of a store. -/
inductive ContentOp
  | save (entry : MemoryEntry)
  | saveOrUpdate (entry : MemoryEntry)
  | saveBatch (entries : List MemoryEntry)
  | delete (id : ℕ)
  | compact
  | addSession (id : String) (start stop : UInt64) (channel summary : String) (ts : UInt64)
  | addEntity (name entityType : String) (embeddingIdx : Int64)
  | addEntityAlias (aliasName : String) (entityId : Int64)
  | addRelation (src tgt : UInt64) (relation : String) (weight : UInt32) (ts : UInt64)

section

variable {env : Env} {config : MemoryConfig}

variable (env) in
def ContentOp.run : ContentOp → Op Unit
  | save entry => discard (Agent.save env entry)
  | saveOrUpdate entry => discard (Agent.saveOrUpdate env entry)
  | saveBatch entries => discard (Agent.saveBatch env entries)
  | delete id => Agent.delete env id
  | compact => discard (Agent.compact env)
  | addSession id start stop channel summary ts =>
    Agent.addSession env id start stop channel summary ts
  | addEntity name entityType embeddingIdx =>
    discard (Agent.addEntity env name entityType embeddingIdx)
  | addEntityAlias aliasName entityId => Agent.addEntityAlias env aliasName entityId
  | addRelation src tgt relation weight ts => Agent.addRelation env src tgt relation weight ts

variable (env) in
/-- The record that an operation adds can be stored. -/
def ContentOp.Storable (dim : ℕ) (knowledge : KnowledgeCache) : ContentOp → Prop
  | save entry | saveOrUpdate entry => entry.Storable dim
  | saveBatch entries => ∀ entry ∈ entries, entry.Storable dim
  | delete _ | compact => True
  | addSession id start stop channel summary ts =>
    (⟨id, start, stop, channel, ts, summary⟩ : SessionEntry).Storable
  | addEntity name entityType embeddingIdx =>
    (⟨knowledge.nextEntityId, name, entityType, embeddingIdx⟩ : Entity).Storable
  | addEntityAlias aliasName _ => StrStorable (env.toLowercase aliasName)
  | addRelation src tgt relation weight ts => (⟨src, tgt, relation, weight, ts⟩ : Relation).Storable

/-- A store under a configuration, with a content that can be stored. -/
structure HDF5Memory.Storable (config : MemoryConfig) (m : HDF5Memory) : Prop where
  config_eq : m.config = config
  content : m.content.Storable config.embeddingDim

/-- An operation keeps the store storable, also where it fails. -/
def Preserves (config : MemoryConfig) {α : Type} (x : Op α) : Prop :=
  ∀ w : World, w.mem.Storable config →
    Ensures (fun _ w' => w'.mem.Storable config) (fun _ w' => w'.mem.Storable config) (x w)

namespace Preserves

variable {α β : Type}
variable {x : Op α} {entry : MemoryEntry}

theorem pure (a : α) : Preserves config (Pure.pure a) := fun _ h => h

theorem throw (e : MemoryError) : Preserves config (MonadExcept.throw e : Op α) := fun _ h => h

theorem bind {f : α → Op β} (hx : Preserves config x) (hf : ∀ a, Preserves config (f a)) :
    Preserves config (x >>= f) := fun w h =>
  (hx w h).bind fun a w' h' => hf a w' h'

theorem discard (hx : Preserves config x) : Preserves config (Functor.discard x) :=
  fun w h => ensures_map.mpr (hx w h)

theorem get {f : World → Op α} (hf : ∀ w : World, w.mem.Storable config → Preserves config (f w)) :
    Preserves config (MonadState.get >>= f) := fun w h => hf w h w h

theorem ite {p : Prop} [Decidable p] {y : Op α} (hx : Preserves config x) (hy : Preserves config y)
    : Preserves config (if p then x else y) := by
  split_ifs
  · exact hx
  · exact hy

theorem io (f : Disk → Disk) : Preserves config (io f) := by
  intro w h
  unfold Agent.io
  split <;> exact h

theorem modifyMem {f : HDF5Memory → HDF5Memory}
    (hf : ∀ m : HDF5Memory, m.Storable config → (f m).Storable config) :
    Preserves config (modifyMem f) := fun w h => hf w.mem h

theorem setWal (wal : Option WalFile) :
    Preserves config (Agent.modifyMem fun m => { m with wal }) :=
  modifyMem fun _ h => ⟨h.config_eq, h.content⟩

theorem modifyCache {f : MemoryCache → MemoryCache}
    (hf : ∀ c : MemoryCache, c.Storable config.embeddingDim →
      (f c).Storable config.embeddingDim) :
    Preserves config (modifyCache f) :=
  modifyMem fun _ h => ⟨h.config_eq, { h.content with memory := hf _ h.content.memory }⟩

theorem truncateWal : Preserves config (Agent.truncateWal env) := by
  refine get fun w _ => ?_
  split
  · exact pure ()
  · exact (io _).bind fun _ => setWal _

theorem flush : Preserves config (flush env) := (get fun _ _ => io _).bind fun _ => truncateWal

theorem flushIfNeeded : Preserves config (flushIfNeeded env) :=
  get fun _ _ => ite (flush.bind fun _ => truncateWal) (pure _)

theorem appendSave (entry : MemoryEntry) : Preserves config (Agent.appendSave env entry) := by
  refine get fun w _ => ?_
  split
  · exact pure ()
  · exact (io _).bind fun _ => setWal _

section

variable (h : entry.Storable config.embeddingDim)
include h

theorem pushEntry : Preserves config (pushEntry env entry) := by
  refine get fun w _ => (modifyCache fun c hc => ?_).bind fun _ => pure _
  exact ⟨hc.dim_eq, forall_mem_append.mpr ⟨hc.entries, forall_mem_singleton.mpr h⟩⟩

theorem save : Preserves config (save env entry) :=
  (appendSave entry).bind fun _ => (pushEntry h).bind fun _ => flushIfNeeded.bind fun _ => pure _

theorem update (idx : ℕ) :
    Preserves config (Agent.modifyCache fun cache => cache.update env idx entry) := by
  refine modifyCache fun c hc => ⟨hc.dim_eq, fun e he => ?_⟩
  -- the updated entry keeps the tags of the one it replaces
  obtain ⟨i, hi, rfl⟩ := mem_iff_getElem.mp he
  have hlt : i < c.entries.length := by
    rw [MemoryCache.update, length_modify] at hi
    exact hi
  have hold := hc.entries _ (getElem_mem hlt)
  simp only [MemoryCache.update, getElem_modify]
  split_ifs
  · exact { h with tags := hold.tags }
  · exact hold

theorem saveOrUpdate : Preserves config (Agent.saveOrUpdate env entry) := by
  refine get fun w _ => ?_
  split
  · exact (appendSave entry).bind fun _ => (update h _).bind fun _ =>
      flushIfNeeded.bind fun _ => pure _
  · exact save h

end

section

variable {entries : List MemoryEntry} (h : ∀ entry ∈ entries, entry.Storable config.embeddingDim)
include h

theorem pushAll : Preserves config (pushAll env entries) := by
  induction entries with
  | nil => exact pure []
  | cons entry entries ih =>
    obtain ⟨hentry, hentries⟩ := forall_mem_cons.mp h
    exact (pushEntry hentry).bind fun _ => (ih hentries).bind fun _ => pure _

theorem saveBatch : Preserves config (saveBatch env entries) :=
  (pushAll h).bind fun _ => flush.bind fun _ => pure _

end

theorem compact : Preserves config (compact env) := by
  refine get fun w hw => (modifyCache fun _ _ => ?_).bind fun _ =>
    ite (flush.bind fun _ => pure _) (pure _)
  refine ⟨hw.content.memory.dim_eq, fun e he => ?_⟩
  obtain ⟨old, hold, rfl⟩ := mem_map.mp he
  have h := hw.content.memory.entries old (mem_of_mem_filter hold)
  exact ⟨h.chunk, h.embedding, h.sourceChannel, h.sessionId, h.tags⟩

/-- A tombstone changes nothing that is stored in a cell or a row. -/
theorem markDeleted {dim : ℕ} {cache : MemoryCache} (h : cache.Storable dim) (id : ℕ) :
    (cache.markDeleted id).1.Storable dim := by
  unfold MemoryCache.markDeleted
  split
  · exact h
  · rename_i old hold
    split
    · refine ⟨h.dim_eq, fun e he => ?_⟩
      rcases mem_or_eq_of_mem_set he with he | rfl
      · exact h.entries e he
      · exact h.entries old (mem_of_getElem? hold)
    · exact h

theorem delete (id : ℕ) : Preserves config (delete env id) := by
  refine get fun w hw => ite ?_ (throw _)
  refine (modifyCache fun _ _ => markDeleted hw.content.memory id).bind fun _ =>
    flush.bind fun _ => ite (compact.bind fun _ => pure _) (pure _)

theorem modifyContent {f : HDF5Memory → HDF5Memory} (hconfig : ∀ m, (f m).config = m.config)
    (hf : ∀ m : HDF5Memory, m.content.Storable config.embeddingDim →
      (f m).content.Storable config.embeddingDim) :
    Preserves config (do Agent.modifyMem f; Agent.flush env) :=
  (modifyMem fun m hm => ⟨(hconfig m).trans hm.config_eq, hf m hm.content⟩).bind fun _ => flush

theorem addSession {id : String} {start stop : UInt64} {channel summary : String} {ts : UInt64}
    (h : (⟨id, start, stop, channel, ts, summary⟩ : SessionEntry).Storable) :
    Preserves config (Agent.addSession env id start stop channel summary ts) :=
  modifyContent (fun _ => rfl) fun _ hm =>
    { hm with sessions := forall_mem_append.mpr ⟨hm.sessions, forall_mem_singleton.mpr h⟩ }

theorem addEntityAlias {aliasName : String} (h : StrStorable (env.toLowercase aliasName))
    (entityId : Int64) : Preserves config (Agent.addEntityAlias env aliasName entityId) :=
  modifyContent (fun _ => rfl) fun _ hm =>
    { hm with aliases := forall_mem_append.mpr ⟨hm.aliases, forall_mem_singleton.mpr h⟩ }

theorem addRelation {src tgt : UInt64} {relation : String} {weight : UInt32} {ts : UInt64}
    (h : (⟨src, tgt, relation, weight, ts⟩ : Relation).Storable) :
    Preserves config (Agent.addRelation env src tgt relation weight ts) :=
  modifyContent (fun _ => rfl) fun _ hm =>
    { hm with relations := forall_mem_append.mpr ⟨hm.relations, forall_mem_singleton.mpr h⟩ }

end Preserves

/-- **Step.** An operation whose record can be stored keeps the store storable, whether it succeeds
or fails. -/
theorem ContentOp.preserves {op : ContentOp} {w : World} (hw : w.mem.Storable config)
    (hop : op.Storable env config.embeddingDim w.mem.knowledge) :
    Ensures (fun _ w' => w'.mem.Storable config) (fun _ w' => w'.mem.Storable config)
      (op.run env w) := by
  cases op with
  | save entry => exact (Preserves.save hop).discard w hw
  | saveOrUpdate entry => exact (Preserves.saveOrUpdate hop).discard w hw
  | saveBatch entries => exact (Preserves.saveBatch hop).discard w hw
  | delete id => exact Preserves.delete id w hw
  | compact => exact Preserves.compact.discard w hw
  | addSession id start stop channel summary ts => exact Preserves.addSession hop w hw
  | addEntity name entityType embeddingIdx =>
    -- the number of the entity is the next one of the state the operation starts in
    have hadd : Preserves config (modifyMem fun m => { m with
        knowledge := (w.mem.knowledge.addEntity name entityType embeddingIdx).1 }) := by
      refine Preserves.modifyMem fun m hm => ⟨hm.config_eq, ?_⟩
      exact ⟨hm.content.memory, hm.content.sessions,
        forall_mem_append.mpr ⟨hw.content.entities, forall_mem_singleton.mpr hop⟩,
        hw.content.relations, hw.content.aliases⟩
    exact ensures_map.mpr ((hadd.bind fun _ => Preserves.flush.bind fun _ => Preserves.pure _) w hw)
  | addEntityAlias aliasName entityId => exact Preserves.addEntityAlias hop entityId w hw
  | addRelation src tgt relation weight ts => exact Preserves.addRelation hop w hw

variable (env) in
/-- The store after an operation, with the number of its I/O steps that succeed. -/
def Store.after (s : Store) (step : ContentOp × Option ℕ) : Store :=
  (finalState (step.1.run env ⟨s, step.2⟩)).toStore

variable (env) in
/-- The store after several operations, each of which may have failed. -/
def Store.afterAll (s : Store) (steps : List (ContentOp × Option ℕ)) : Store :=
  steps.foldl (Store.after env) s

variable (env) in
/-- Every operation of a run adds only what can be stored. -/
def AllStorable (dim : ℕ) (s : Store) : List (ContentOp × Option ℕ) → Prop
  | [] => True
  | step :: steps =>
    step.1.Storable env dim s.mem.knowledge ∧ AllStorable dim (s.after env step) steps

/-- **Run.** Operations whose records can be stored lead to stores that can be stored. -/
theorem storable_afterAll {s : Store} (hs : s.mem.Storable config)
    {steps : List (ContentOp × Option ℕ)} (hsteps : AllStorable env config.embeddingDim s steps) :
    (s.afterAll env steps).mem.Storable config := by
  induction steps generalizing s with
  | nil => exact hs
  | cons step steps ih =>
    have hstep := @ContentOp.preserves env config step.1 ⟨s, step.2⟩ hs hsteps.1
    have hafter : (s.after env step).mem.Storable config :=
      finalState_of_ensures (P := fun w : World => w.mem.Storable config) hstep
    exact ih hafter hsteps.2

theorem storable_create {disk : Disk} {s : Store} (h : create env config disk = .ok s) :
    s.mem.Storable config ∧ s.mem.content.leaves = [] := by
  have hempty (wal : Option WalFile) : (⟨config, MemoryCache.new config.embeddingDim, [],
      KnowledgeCache.newWithNextId 0, wal⟩ : HDF5Memory).Storable config :=
    ⟨rfl, ⟨rfl, nofun⟩, nofun, nofun, nofun, nofun⟩
  unfold create at h
  split_ifs at h
  · obtain ⟨r, -, h⟩ := bind_ok_iff.mp h
    obtain rfl := Except.ok.inj h
    exact ⟨hempty _, rfl⟩
  · obtain rfl := Except.ok.inj h
    exact ⟨hempty _, rfl⟩

/-- In every run of a store whose operations add only strings and numbers that the datasets can
hold, and embeddings of the length of the configuration, the snapshot is loaded with all that the
root covers. A store without content has no root: strict mode refuses it, the other one loads it. -/
theorem snapshot_loads {L : Layer} {H : Hashers} {disk : Disk} {s : Store}
    (hcreate : create env config disk = .ok s) (hconfig : config.Storable)
    {steps : List (ContentOp × Option ℕ)} (hsteps : AllStorable env config.embeddingDim s steps)
    (halloc : (s.afterAll env steps).mem.cache.entries.length * config.embeddingDim < 2 ^ 64) :
    let m := (s.afterAll env steps).mem
    (m.content.leaves ≠ [] → ∃ c',
      validateAndLoadStrict L H (buildHdf5File H m.config m.content) =
        .ok (config.loaded "", c') ∧ c'.Covers m.content) ∧
    (m.content.leaves = [] →
      validateAndLoadStrict L H (buildHdf5File H m.config m.content) =
        .error (.integrity missingRootMessage) ∧
      ∃ c', validateAndLoad L H (buildHdf5File H m.config m.content) =
        .ok (config.loaded "", c') ∧ c'.Covers m.content) := by
  intro m
  have hm : m.Storable config := storable_afterAll (storable_create hcreate).1 hsteps
  have hload := @validateAndLoadImpl_build L H config m.content hconfig hm.content halloc
  have hcovers := m.content.covers_reloaded config.embeddingDim
  rw [hm.config_eq]
  constructor
  · intro hne
    refine ⟨_, (hload true).trans ?_, hcovers⟩
    rw [isEmpty_eq_false_iff.mpr hne]
    rfl
  · intro hempty
    refine ⟨(hload true).trans ?_, _, (hload false).trans ?_, hcovers⟩
    · rw [hempty]
      rfl
    · rw [Bool.false_and]
      rfl

end

/-! ### A run, and content that is not read back -/

/-- A layer that converts no numbers. -/
def plainLayer : Layer where
  convertF32 _ := .error ""
  convertF64 _ := .error ""
  convertI64 _ := .error ""
  convertI32 _ := .error ""
  computeNorm _ := 0
  debug
    | .companionTampered => "CompanionTampered"
    | _ => ""

/-- A run with a record of each kind, and with an operation that fails. -/
def fiveRecords : List (ContentOp × Option ℕ) :=
  [(.save (zeroEntry "a" "x"), none), (.saveBatch [zeroEntry "" "y"], some 1),
    (.addSession "s" 0 1 "cli" "summary" 0, none), (.addEntity "e" "concept" 0, none),
    (.addRelation 0 0 "self" oneF32 0, none), (.addEntityAlias "f" 0, none), (.delete 1, none)]

instance decidableContentOpStorable (env : Env) (dim : ℕ) (k : KnowledgeCache) :
    (op : ContentOp) → Decidable (op.Storable env dim k)
  | .save entry => decidableEntryStorable dim entry
  | .saveOrUpdate entry => decidableEntryStorable dim entry
  | .saveBatch _ => inferInstanceAs (Decidable (∀ _ ∈ _, _))
  | .delete _ => isTrue trivial
  | .compact => isTrue trivial
  | .addSession .. => decidableSessionStorable _
  | .addEntity .. => decidableEntityStorable _
  | .addEntityAlias .. => decidableStrStorable _
  | .addRelation .. => decidableRelationStorable _

instance decidableAllStorable (env : Env) (dim : ℕ) :
    (s : Store) → (steps : List (ContentOp × Option ℕ)) → Decidable (AllStorable env dim s steps)
  | _, [] => isTrue trivial
  | s, step :: steps =>
    have := decidableAllStorable env dim (s.after env step) steps
    inferInstanceAs (Decidable (_ ∧ _))

theorem snapshot_loads_fiveRecords :
    ∃ s, create zeroEnv zeroConfig ⟨none, none⟩ = .ok s ∧
      ∃ c', validateAndLoadStrict plainLayer realHashers (buildHdf5File realHashers
          (s.afterAll zeroEnv fiveRecords).mem.config
          (s.afterAll zeroEnv fiveRecords).mem.content) = .ok (zeroConfig.loaded "", c') ∧
        c'.Covers (s.afterAll zeroEnv fiveRecords).mem.content := by
  have hrun : ∃ s, create zeroEnv zeroConfig ⟨none, none⟩ = .ok s ∧
      AllStorable zeroEnv 1 s fiveRecords ∧
      (s.afterAll zeroEnv fiveRecords).mem.cache.entries.length * 1 < 2 ^ 64 ∧
      (s.afterAll zeroEnv fiveRecords).mem.content.leaves ≠ [] := by decide +kernel
  obtain ⟨s, hcreate, hsteps, halloc, hne⟩ := hrun
  exact ⟨s, hcreate, (@snapshot_loads zeroEnv zeroConfig plainLayer realHashers ⟨none, none⟩ s
    hcreate (by decide) fiveRecords hsteps halloc).1 hne⟩

/-- What strict mode says to the snapshot after some operations. -/
def strictOutcome (s : Store) (steps : List (ContentOp × Option ℕ)) :
    Except MemoryError (MemoryConfig × Content) :=
  let m := (s.afterAll zeroEnv steps).mem
  validateAndLoadStrict plainLayer realHashers (buildHdf5File realHashers m.config m.content)

/-- Strict mode refuses a new store. It also refuses a string that ends in a zero byte, an
embedding that is longer than the configuration says, and a number from `2 ^ 63` on. -/
theorem strictOutcome_refused :
    ∃ s, create zeroEnv zeroConfig ⟨none, none⟩ = .ok s ∧
      strictOutcome s [] = .error (.integrity missingRootMessage) ∧
      strictOutcome s [(.save (zeroEntry "a\x00" "x"), none)] =
        .error (.integrity "content Merkle verification failed: CompanionTampered") ∧
      strictOutcome s [(.save ⟨"a", [0, 0], "", 0, "", "x"⟩, none)] =
        .error (.integrity "content Merkle verification failed: CompanionTampered") ∧
      strictOutcome s [(.addSession "s" (2 ^ 63) 0 "cli" "" 0, none)] =
        .error (.schema ("/sessions/start_idxs: negative value " ++
          "-9223372036854775808 is not allowed")) := by
  decide +kernel

end ClawHdf5.Agent
