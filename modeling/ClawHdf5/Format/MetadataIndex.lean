import ClawHdf5.Format.ChunkedWrite
import ClawHdf5.Format.Messages
import ClawHdf5.Math.SortDedup

/-!
# Merging the metadata of independent writers

Each creator describes its datasets in a block of its own. The blocks are merged into one index,
sorted by the names of the datasets, which is refused when two datasets share a name, and the file
is written from the index. Since distinct names leave only one order, neither the index nor the
file depends on the order in which the blocks arrive.
-/

namespace ClawHdf5.Format

open Bytes Fallible SortDedup List

/-- What a creator says of one dataset. The datatype is given by its serialized form and the size
of its values. -/
structure DatasetMetadata where
  name : String
  datatype : Bytes
  elementSize : ℕ
  dimensions : List ℕ
  chunkOptions : ChunkOptions
  maxshape : Option (List ℕ)
  attrs : List AttributeMessage
  rawData : Bytes
  deriving DecidableEq

/-- Whether a dataset is stored in chunks. -/
def DatasetMetadata.isChunked (ds : DatasetMetadata) : Bool :=
  ds.chunkOptions.chunkDims.isSome || ds.chunkOptions.hasCompression || ds.chunkOptions.shuffle ||
    ds.chunkOptions.fletcher32 || ds.maxshape.isSome

/-- The compressed chunks of a dataset that has some. -/
def DatasetMetadata.precompress (codecs : Codecs) (ds : DatasetMetadata) :
    Run (DatasetMetadata × Option PrecompressedChunks) :=
  if ds.isChunked then do
    let chunkDims := ds.chunkOptions.chunkDims.getD ds.dimensions
    let pre ← precompressChunks codecs ds.rawData ds.dimensions chunkDims ds.elementSize
      ds.chunkOptions
    .ok (ds, some pre)
  else .ok (ds, none)

/-- The datasets of one creator. -/
structure MetadataBlock where
  creatorId : ℕ
  datasets : List DatasetMetadata

inductive CreationMode
  | collective
  | independent
  deriving DecidableEq

/-- Where a dataset stands in the merged sequence, and which block it came from. -/
structure IndexEntry where
  name : String
  datasetIndex : ℕ
  sourceBlock : ℕ
  deriving DecidableEq

structure MetadataIndex where
  mode : CreationMode
  entries : List IndexEntry
  datasets : List DatasetMetadata
  deriving DecidableEq

namespace MetadataIndex

/-- Names are compared byte by byte. -/
def nameKey (name : String) : List ℕ := (utf8Bytes name).map UInt8.toNat

/-- Refuse a list in which two neighbours are equal. -/
def checkNeighbours : List String → Run Unit
  | first :: second :: rest => do
    reject (second = first) (.error (.duplicateDatasetName second))
    checkNeighbours (second :: rest)
  | _ => .ok ()

def checkDuplicates (entries : List IndexEntry) : Run Unit :=
  checkNeighbours (sortBy nameKey (entries.map IndexEntry.name))

/-- The datasets of all blocks, each with its creator, in the order of the blocks. -/
def flatten (blocks : List MetadataBlock) : List (ℕ × DatasetMetadata) :=
  blocks.flatMap fun block => block.datasets.map fun ds => (block.creatorId, ds)

/-- The entries of datasets that stand one behind another. -/
def entriesOf (flat : List (ℕ × DatasetMetadata)) : List IndexEntry :=
  flat.zipIdx.map fun (ds, idx) => ⟨ds.2.name, idx, ds.1⟩

/-- Merge blocks into one index. The positions are sorted, by the names of the entries there, and
the entries and datasets are then taken in that order. -/
def mergeBlocks (blocks : List MetadataBlock) : Run MetadataIndex := do
  let entries := entriesOf (flatten blocks)
  let datasets := (flatten blocks).map (·.2)
  let order := sortBy (fun i => nameKey (entries[i]?.elim "" IndexEntry.name))
    (range entries.length)
  let sortedEntries := order.zipIdx.filterMap fun (oldIdx, newIdx) =>
    entries[oldIdx]?.map ({ · with datasetIndex := newIdx })
  let sortedDatasets := order.filterMap (datasets[·]?)
  checkDuplicates sortedEntries
  .ok ⟨.independent, sortedEntries, sortedDatasets⟩

def find (index : MetadataIndex) (name : String) : Option DatasetMetadata := do
  let entry ← index.entries.find? (·.name = name)
  index.datasets[entry.datasetIndex]?

/-! ### Writing the file -/

section

variable (codecs : Codecs)
  (assemble : List (DatasetMetadata × Option PrecompressedChunks) → Run Bytes)

/-- The file writer on the datasets of an index: the chunks of all are compressed, then addresses
are given out and the file is put together by `assemble`. -/
def finalizeFromIndex (index : MetadataIndex) : Run Bytes := do
  let pre ← index.datasets.mapM (DatasetMetadata.precompress codecs)
  assemble pre

def finalizeParallel (blocks : List MetadataBlock) : Run Bytes := do
  let index ← mergeBlocks blocks
  finalizeFromIndex codecs assemble index

end

/-! ### The merged index -/

variable {blocks blocks' : List MetadataBlock} {xs : List (ℕ × DatasetMetadata)}

def names (blocks : List MetadataBlock) : List String := (flatten blocks).map (·.2.name)

def sorted (blocks : List MetadataBlock) : List (ℕ × DatasetMetadata) :=
  sortBy (fun ds => nameKey ds.2.name) (flatten blocks)

theorem nameKey_injective : Function.Injective nameKey := by
  intro a b h
  have hbytes : utf8Bytes a = utf8Bytes b := map_injective_iff.mpr (fun _ _ => UInt8.toNat_inj.mp) h
  have ha : fromUtf8 (utf8Bytes a) = some a := fromUtf8_eq_some.mpr rfl
  exact Option.some.inj (ha.symm.trans (fromUtf8_eq_some.mpr hbytes))

theorem checkNeighbours_eq_ok {xs : List String} :
    checkNeighbours xs = .ok () ↔ xs.IsChain (· ≠ ·) := by
  induction xs with
  | nil => simp [checkNeighbours]
  | cons first xs ih =>
    cases xs with
    | nil => simp [checkNeighbours]
    | cons second rest =>
      rw [isChain_cons_cons, ← ih, checkNeighbours, ne_comm]
      by_cases heq : second = first
      · simp [heq, reject, error_bind]
      · simp [heq, reject_of_not]

theorem exists_of_checkNeighbours {xs : List String} (h : checkNeighbours xs ≠ .ok ()) :
    ∃ name, checkNeighbours xs = fail (.duplicateDatasetName name) := by
  induction xs with
  | nil => exact absurd rfl h
  | cons first xs ih =>
    cases xs with
    | nil => exact absurd rfl h
    | cons second rest =>
      rw [checkNeighbours] at h ⊢
      by_cases heq : second = first
      · exact ⟨second, by rw [reject, if_pos heq]; rfl⟩
      · rw [reject_bind heq] at h ⊢
        exact ih h

theorem getElem?_entriesOf (i : ℕ) :
    (entriesOf xs)[i]? = xs[i]?.map fun ds => ⟨ds.2.name, i, ds.1⟩ := by
  rw [entriesOf, getElem?_map, getElem?_zipIdx]
  cases xs[i]? <;> simp

/-- The entries taken at given positions are those of the datasets taken there. -/
theorem filterMap_zipIdx_entriesOf {order : List ℕ} (h : ∀ i ∈ order, i < xs.length) (start : ℕ) :
    ((order.zipIdx start).filterMap fun (oldIdx, newIdx) =>
        (entriesOf xs)[oldIdx]?.map ({ · with datasetIndex := newIdx })) =
      ((order.filterMap (xs[·]?)).zipIdx start).map fun (ds, idx) => ⟨ds.2.name, idx, ds.1⟩ := by
  induction order generalizing start with
  | nil => rfl
  | cons i order ih =>
    obtain ⟨hi, horder⟩ := forall_mem_cons.mp h
    have hget := getElem?_eq_getElem hi
    rw [zipIdx_cons, filterMap_cons, filterMap_cons]
    simp only [getElem?_entriesOf, hget, Option.map_some]
    rw [zipIdx_cons, map_cons, ← ih horder (start + 1)]
    simp only [getElem?_entriesOf]

theorem map_name_entriesOf : (entriesOf xs).map IndexEntry.name = xs.map (·.2.name) := by
  apply ext_getElem?
  intro i
  rw [getElem?_map, getElem?_map, getElem?_entriesOf, Option.map_map]
  rfl

/-- Sorted names do not depend on the order in which they came. -/
theorem sortBy_nameKey_eq {xs ys : List String} (h : xs.Perm ys) :
    sortBy nameKey xs = sortBy nameKey ys :=
  sortBy_eq_of_perm h fun _ _ _ _ heq => nameKey_injective heq

/-- The index has the datasets in the order of their names. -/
theorem mergeBlocks_eq (blocks : List MetadataBlock) : mergeBlocks blocks = (do
      checkNeighbours (sortBy nameKey (names blocks))
      .ok ⟨.independent, entriesOf (sorted blocks), (sorted blocks).map (·.2)⟩) := by
  rw [mergeBlocks]
  generalize horder : sortBy (fun i => nameKey ((entriesOf (flatten blocks))[i]?.elim ""
    IndexEntry.name)) (range (entriesOf (flatten blocks)).length) = order
  have hlen : (entriesOf (flatten blocks)).length = (flatten blocks).length := by
    rw [entriesOf, length_map, length_zipIdx]
  rw [hlen] at horder
  have hbound : ∀ i ∈ order, i < (flatten blocks).length := by
    intro i hi
    rw [← horder, (perm_sortBy _ _).mem_iff] at hi
    exact mem_range.mp hi
  have hsorted : order.filterMap ((flatten blocks)[·]?) = sorted blocks := by
    rw [← horder]
    refine filterMap_sortBy_range fun i ds hds => ?_
    rw [getElem?_entriesOf, hds]
    rfl
  have hdatasets : order.filterMap (((flatten blocks).map (·.2))[·]?) =
      (sorted blocks).map (·.2) := by
    simp [← hsorted, map_filterMap]
  have hentries := filterMap_zipIdx_entriesOf hbound 0
  rw [hsorted] at hentries
  have hnames : ((sorted blocks).map (·.2.name)).Perm (names blocks) := (perm_sortBy _ _).map _
  rw [hentries, hdatasets, checkDuplicates, ← entriesOf, map_name_entriesOf,
    sortBy_nameKey_eq hnames]

theorem checkNeighbours_names :
    checkNeighbours (sortBy nameKey (names blocks)) = .ok () ↔ (names blocks).Nodup := by
  rw [checkNeighbours_eq_ok, ← nodup_iff_isChain nameKey_injective (pairwise_sortBy _ _)]
  exact (perm_sortBy _ _).nodup_iff

theorem mergeBlocks_of_nodup (h : (names blocks).Nodup) : mergeBlocks blocks =
      .ok ⟨.independent, entriesOf (sorted blocks), (sorted blocks).map (·.2)⟩ := by
  rw [mergeBlocks_eq, checkNeighbours_names.mpr h, ok_bind]

theorem mergeBlocks_of_not_nodup (h : ¬(names blocks).Nodup) :
    ∃ name, mergeBlocks blocks = fail (.duplicateDatasetName name) := by
  obtain ⟨name, hname⟩ := exists_of_checkNeighbours (mt checkNeighbours_names.mp h)
  exact ⟨name, by rw [mergeBlocks_eq, hname]; rfl⟩

/-- Datasets with distinct names are told apart by them. -/
theorem eq_of_name_eq (h : (names blocks).Nodup) {a b : ℕ × DatasetMetadata}
    (ha : a ∈ flatten blocks) (hb : b ∈ flatten blocks) (hname : a.2.name = b.2.name) : a = b :=
  inj_on_of_nodup_map h ha hb hname

theorem mergeBlocks_perm (h : blocks.Perm blocks') : mergeBlocks blocks' = mergeBlocks blocks := by
  have hflat : (flatten blocks).Perm (flatten blocks') := h.flatMap_right _
  have hnames := sortBy_nameKey_eq (hflat.map (·.2.name))
  rw [mergeBlocks_eq, mergeBlocks_eq, names, names, ← hnames]
  by_cases hnodup : (names blocks).Nodup
  · have hsorted : sorted blocks = sorted blocks' := sortBy_eq_of_perm hflat fun a ha b hb hkey =>
        eq_of_name_eq hnodup ha hb (nameKey_injective hkey)
    rw [hsorted]
  · -- the check stops with the same name for both
    obtain ⟨name, hname⟩ := exists_of_checkNeighbours (mt checkNeighbours_names.mp hnodup)
    rw [names] at hname
    rw [hname]
    rfl

/-- A dataset is found by its name. -/
theorem find_eq (h : (names blocks).Nodup) {ds : ℕ × DatasetMetadata} (hds : ds ∈ flatten blocks) :
    find ⟨.independent, entriesOf (sorted blocks), (sorted blocks).map (·.2)⟩
      ds.2.name = some ds.2 := by
  have hmem : ds.2.name ∈ (entriesOf (sorted blocks)).map IndexEntry.name := by
    rw [map_name_entriesOf]
    exact mem_map_of_mem ((perm_sortBy _ _).mem_iff.mpr hds)
  obtain ⟨entry, hentry, hname⟩ := mem_map.mp hmem
  have hsome : ((entriesOf (sorted blocks)).find? (·.name = ds.2.name)).isSome :=
    find?_isSome.mpr ⟨entry, hentry, decide_eq_true hname⟩
  obtain ⟨found, hfound⟩ := Option.isSome_iff_exists.mp hsome
  -- the entry that is found has the name, and so the dataset there is the one looked for
  have hfoundName : found.name = ds.2.name := by
    have hpass := find?_some hfound
    exact of_decide_eq_true hpass
  obtain ⟨i, hi⟩ := mem_iff_getElem?.mp (mem_of_find?_eq_some hfound)
  rw [getElem?_entriesOf, Option.map_eq_some_iff] at hi
  obtain ⟨ds', hds', rfl⟩ := hi
  have hmem' := (perm_sortBy _ _).mem_iff.mp (mem_of_getElem? hds')
  obtain rfl := eq_of_name_eq h hmem' hds hfoundName
  simp [find, hfound, hds']

/-- **The merged index and the file do not depend on the order of the blocks.** Merging fails
exactly when two datasets share a name; otherwise every dataset is found by its name, and the file
is what the file writer makes of the index. -/
theorem finalizeParallel_orderIndependent (codecs : Codecs)
    (assemble : List (DatasetMetadata × Option PrecompressedChunks) → Run Bytes)
    (blocks : List MetadataBlock) :
    (∀ blocks', blocks.Perm blocks' → mergeBlocks blocks' = mergeBlocks blocks ∧
      finalizeParallel codecs assemble blocks' = finalizeParallel codecs assemble blocks) ∧
    (¬(names blocks).Nodup → ∃ name,
      mergeBlocks blocks = fail (.duplicateDatasetName name) ∧
      finalizeParallel codecs assemble blocks = fail (.duplicateDatasetName name)) ∧
    ((names blocks).Nodup → ∃ index, mergeBlocks blocks = .ok index ∧
      (∀ block ∈ blocks, ∀ ds ∈ block.datasets, index.find ds.name = some ds) ∧
      finalizeParallel codecs assemble blocks = finalizeFromIndex codecs assemble index) := by
  refine ⟨fun blocks' hperm => ?_, fun hshared => ?_, fun hnodup => ?_⟩
  · have hmerge := mergeBlocks_perm hperm
    exact ⟨hmerge, by rw [finalizeParallel, finalizeParallel, hmerge]⟩
  · obtain ⟨name, hname⟩ := mergeBlocks_of_not_nodup hshared
    exact ⟨name, hname, by rw [finalizeParallel, hname]; rfl⟩
  · have hmerge := mergeBlocks_of_nodup hnodup
    refine ⟨_, hmerge, fun block hblock ds hds => ?_, by rw [finalizeParallel, hmerge, ok_bind]⟩
    have hmem : (block.creatorId, ds) ∈ flatten blocks :=
      mem_flatMap.mpr ⟨block, hblock, mem_map_of_mem hds⟩
    exact find_eq hnodup hmem

/-- One scalar dataset, of three bytes, that is to be shuffled as values of two. -/
def unevenBlock : MetadataBlock :=
  ⟨0, [⟨"a", [], 2, [], { shuffle := true }, none, [], [0, 0, 0]⟩]⟩

/-- The file writer refuses a dataset although no two share a name. -/
theorem finalizeParallel_unevenBlock :
    (names [unevenBlock]).Nodup ∧ ∀ codecs assemble,
      finalizeParallel codecs assemble [unevenBlock] =
        fail (.filterError "shuffle: data length not a multiple of element size") := by
  have hnodup : (names [unevenBlock]).Nodup := by decide
  refine ⟨hnodup, fun codecs assemble => ?_⟩
  have hsorted : sorted [unevenBlock] = flatten [unevenBlock] := mergeSort_singleton _
  rw [finalizeParallel, mergeBlocks_of_nodup hnodup, hsorted]
  rfl

end MetadataIndex

end ClawHdf5.Format
