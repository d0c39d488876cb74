import ClawHdf5.Format.BTreeV2
import ClawHdf5.Format.HeapRoundTrip
import ClawHdf5.Format.Messages

/-!
# Dense storage

Many links of a group, and many attributes of an object, are kept as messages in a fractal heap. A
B-tree of one leaf indexes them: its records hold the heap identifiers, sorted by the hash of the
name. The heap is followed by the header and then the leaf of the tree.

What the writer accepts is more than it can store: the number of records has two bytes in the tree
header, a heap has only so many direct blocks, and an object longer than its block is cut.
-/

namespace ClawHdf5.Format

open Bytes Fallible Cells MachineInt List

/-! ### Writing -/

/-- Heap, tree header and leaf, with the addresses of the first two. -/
structure DenseBlob where
  fractalHeapAddress : ℕ
  btreeNameIndexAddress : ℕ
  blob : Bytes

/-- How a kind of message is indexed: the type of the tree, the widths of heap offsets and heap
identifiers, the size of a record, and a record from the hash of the name, the number of the message
and its identifier. -/
structure DenseKind where
  treeType : ℕ
  maxHeapSize : ℕ
  heapIdLength : ℕ
  recordSize : ℕ
  record : UInt32 → ℕ → Bytes → Bytes
  idOffset : ℕ

/-- The records of messages in the order of their hashes, and of their numbers where those agree. -/
def sortRecords (records : List (UInt32 × ℕ × Bytes)) : List Bytes :=
  (records.mergeSort fun a b => a.1 < b.1 ∨ (a.1 = b.1 ∧ a.2.1 ≤ b.2.1)).map fun r => r.2.2

/-- The records, in the order of the messages. -/
def denseRecords (kind : DenseKind) (names heapIds : List Bytes) : List (UInt32 × ℕ × Bytes) :=
  ((names.map jenkinsLookup3).zip heapIds).zipIdx.map fun ((hash, heapId), i) =>
    (hash, i % 2 ^ 32, kind.record hash (i % 2 ^ 32) heapId)

/-- Store messages with names. -/
def buildDense (kind : DenseKind) (names serialized : List Bytes) (baseAddress : ℕ) : DenseBlob :=
  let heap := buildSingleBlockFractalHeap serialized baseAddress kind.maxHeapSize kind.heapIdLength
  let records := sortRecords (denseRecords kind names heap.heapIds)
  let bthdAddr := heap.btreeAddr
  { fractalHeapAddress := heap.frhpAddr
    btreeNameIndexAddress := bthdAddr
    blob := heap.blob ++ bthd kind.treeType kind.recordSize names.length (bthdAddr + bthdSize) ++
      btlf kind.treeType kind.recordSize records }

/-- Links: the hash and the identifier. -/
def denseLinkKind : DenseKind where
  treeType := 5
  maxHeapSize := 32
  heapIdLength := 7
  recordSize := 4 + 7
  record := fun hash _ heapId => leBytes 4 hash.toNat ++ heapId
  idOffset := 4

/-- Attributes: the identifier, message flags, the number and the hash. -/
def denseAttrKind : DenseKind where
  treeType := 8
  maxHeapSize := 40
  heapIdLength := 8
  recordSize := 8 + 1 + 4 + 4
  record := fun hash i heapId => heapId ++ leBytes 1 0 ++ leBytes 4 i ++ leBytes 4 hash.toNat
  idOffset := 0

/-- Store the links of a group. -/
def buildDenseLinks (links : List LinkMessage) (baseAddress : ℕ) : DenseBlob :=
  buildDense denseLinkKind (links.map fun l => utf8Bytes l.name) (links.map fun l => l.serialize 8)
    baseAddress

/-- Store the attributes of an object. -/
def buildDenseAttrs (attrs : List AttributeMessage) (baseAddress : ℕ) : DenseBlob :=
  buildDense denseAttrKind (attrs.map fun a => utf8Bytes a.name)
    (attrs.map AttributeMessage.serializeV3) baseAddress

/-! ### Reading -/

/-- The message of a record, unless the record is too short for an identifier. -/
def readRecord (header : FractalHeapHeader) (fileData : Bytes) (idOffset offsetSize : ℕ)
    (record : Bytes) : Run (Option Bytes) :=
  if record.length < idOffset + header.heapIdLength then .ok none
  else do
    let idBytes ← slice record idOffset (idOffset + header.heapIdLength)
    some <$> header.readManagedObject fileData idBytes offsetSize

/-- The messages of a heap, by the records of a tree. -/
def readDense (fileData : Bytes) (fhAddr btreeAddr offsetSize lengthSize : ℕ)
    (idOffset : BTreeV2Header → ℕ) : Run (List Bytes) := do
  let fh ← FractalHeapHeader.parse fileData fhAddr offsetSize lengthSize
  let btreeHdr ← BTreeV2Header.parse fileData btreeAddr offsetSize lengthSize
  let records ← collectBtreeV2Records fileData btreeHdr offsetSize
  collectFound (readRecord fh fileData (idOffset btreeHdr) offsetSize) records

/-- The link messages of a group. Records begin with the hash of the name, or with the creation
order in a tree of another type. -/
def resolveDenseEntries (fileData : Bytes) (fhAddr btreeAddr offsetSize lengthSize : ℕ) :
    Run (List Bytes) :=
  readDense fileData fhAddr btreeAddr offsetSize lengthSize fun btreeHdr =>
    if btreeHdr.treeType = 5 then 4 else 8

/-- The attribute messages of an object. Records begin with the identifier. -/
def extractDenseAttributes (fileData : Bytes) (fhAddr btreeAddr offsetSize lengthSize : ℕ) :
    Run (List Bytes) :=
  readDense fileData fhAddr btreeAddr offsetSize lengthSize fun _ => 0

/-! ### Reading back -/

/-- What a kind's widths have to do with each other. -/
structure DenseKind.Sound (kind : DenseKind) : Prop where
  id : kind.maxHeapSize + 16 = 8 * (kind.heapIdLength - 1)
  lo : 20 ≤ kind.maxHeapSize
  hi : kind.maxHeapSize ≤ 48
  treeType_lt : kind.treeType < 256
  recordSize_le : kind.recordSize ≤ 256
  length_record : ∀ hash i heapId, heapId.length = kind.heapIdLength →
    (kind.record hash i heapId).length = kind.recordSize
  standsAt_record : ∀ hash i heapId, StandsAt (kind.record hash i heapId) kind.idOffset heapId

theorem denseLinkKind_sound : denseLinkKind.Sound where
  id := rfl
  lo := by decide
  hi := by decide
  treeType_lt := by decide
  recordSize_le := by decide
  length_record := by
    intro hash i heapId h
    simp only [denseLinkKind, length_append, length_leBytes] at h ⊢
    rw [h]
  standsAt_record := by
    intro hash i heapId
    exact ⟨leBytes 4 hash.toNat, [], (append_nil _).symm, length_leBytes 4 _⟩

theorem denseAttrKind_sound : denseAttrKind.Sound where
  id := rfl
  lo := by decide
  hi := by decide
  treeType_lt := by decide
  recordSize_le := by decide
  length_record := by
    intro hash i heapId h
    simp only [denseAttrKind, length_append, length_leBytes] at h ⊢
    rw [h]
  standsAt_record := by
    intro hash i heapId
    exact ⟨[], leBytes 1 0 ++ leBytes 4 i ++ leBytes 4 hash.toNat, by
      simp [denseAttrKind], rfl⟩

/-- Messages of a kind can be stored: they are fewer than `2 ^ 16` and find room in the heap. -/
def DenseFits (kind : DenseKind) (serialized : List Bytes) : Prop :=
  serialized.length < 2 ^ 16 ∧
    HeapFits (dblockHeaderSize kind.maxHeapSize) (serialized.map length)

section

variable {kind : DenseKind} {file : Bytes} {base : ℕ} {names serialized : List Bytes}

/-- The records stand for the identifiers, one by one. -/
theorem forall₂_denseRecords {heapIds : List Bytes} (hlen : names.length = heapIds.length) :
    Forall₂ (fun heapId r => ∃ hash i, r = kind.record hash i heapId) heapIds
      ((denseRecords kind names heapIds).map fun r => r.2.2) := by
  rw [forall₂_iff_getElem?]
  refine ⟨by simp [denseRecords, hlen], fun i heapId r hid hr => ?_⟩
  have hi : i < names.length := hlen ▸ lt_of_getElem? hid
  have hpair : ((names.map jenkinsLookup3).zip heapIds)[i]? =
      some (jenkinsLookup3 names[i], heapId) := by
    refine getElem?_zip_eq_some.mpr ⟨?_, hid⟩
    rw [getElem?_map, getElem?_eq_getElem hi, Option.map_some]
  have hentry : ((names.map jenkinsLookup3).zip heapIds).zipIdx[i]? =
      some ((jenkinsLookup3 names[i], heapId), i) := by
    rw [getElem?_zipIdx, hpair]
    simp
  rw [denseRecords, map_map, getElem?_map, hentry, Option.map_some, Option.some.injEq] at hr
  exact ⟨_, _, hr.symm⟩

/-- What the heap is built from. -/
abbrev DenseKind.input (kind : DenseKind) (serialized : List Bytes) (base : ℕ) : HeapInput :=
  ⟨serialized, base, kind.maxHeapSize, kind.heapIdLength⟩

theorem DenseKind.Sound.input (h : kind.Sound) (hserialized : serialized ≠ []) (base : ℕ) :
    (kind.input serialized base).Sound :=
  ⟨h.id, h.lo, h.hi, hserialized⟩

theorem length_buildDense : (buildDense kind names serialized base).blob.length =
    (kind.input serialized base).build.blob.length + bthdSize + nodeSize (sortRecords
      (denseRecords kind names (kind.input serialized base).build.heapIds)).length
      kind.recordSize := by
  rw [buildDense]
  rw [length_append, length_append, length_bthd, btlf, length_resize]

/-- A record that holds an identifier leads to its message. -/
theorem readRecord_eq {header : FractalHeapHeader} {s heapId : Bytes} {hash : UInt32} {i : ℕ}
    (hkind : kind.Sound) (hid : header.heapIdLength = kind.heapIdLength)
    (hlen : heapId.length = kind.heapIdLength)
    (hread : header.readManagedObject file heapId 8 = .ok s) :
    readRecord header file kind.idOffset 8 (kind.record hash i heapId) = .ok (some s) := by
  have hstands := hkind.standsAt_record hash i heapId
  have hle := hstands.le
  have hslice := slice_of_standsAt hstands
  rw [hlen, ← hid] at hle hslice
  rw [readRecord, if_neg (not_lt.mpr hle), hslice, ok_bind, hread]
  rfl

/-- What can be stored is read back. -/
theorem readDense_build (hkind : kind.Sound) (hfile : file.length < 2 ^ 63)
    (hnames : names.length = serialized.length) (hserialized : serialized ≠ [])
    (hne : ∀ s ∈ serialized, s ≠ []) (htotal : (serialized.map length).sum < 2 ^ 63)
    (hfits : DenseFits kind serialized) {idOffset : BTreeV2Header → ℕ}
    (hoffset : ∀ header : BTreeV2Header, header.treeType = kind.treeType →
      idOffset header = kind.idOffset)
    (h : StandsAt file base (buildDense kind names serialized base).blob) :
    ∃ out, readDense file (buildDense kind names serialized base).fractalHeapAddress
        (buildDense kind names serialized base).btreeNameIndexAddress 8 8 idOffset = .ok out ∧
      out.Perm serialized := by
  have hinput := hkind.input hserialized base
  have hbuilt := hinput.built htotal
  have hids := hbuilt.length_heapIds
  have hidLength := hbuilt.length_of_mem hinput
  rw [buildDense] at h ⊢
  rw [standsAt_append, standsAt_append, length_append, length_bthd, ← add_assoc, hbuilt.end_eq] at h
  obtain ⟨⟨hheap, hbthd⟩, hbtlf⟩ := h
  obtain ⟨header, hparse, hheaderId, hall⟩ := hinput.readsBack hfile hne hfits.2 hheap
  rw [hbuilt.heapIdLength] at hheaderId
  dsimp only [HeapInput.build] at *
  generalize buildSingleBlockFractalHeap serialized base kind.maxHeapSize kind.heapIdLength = heap
    at *
  -- the records in the order of the messages, and in that of the leaf
  have hrecords := @forall₂_denseRecords kind names heap.heapIds (hnames.trans hids.symm)
  have hperm : (sortRecords (denseRecords kind names heap.heapIds)).Perm _ :=
    (mergeSort_perm _ _).map _
  generalize (denseRecords kind names heap.heapIds).map (fun r => r.2.2) = records at hrecords hperm
  generalize sortRecords (denseRecords kind names heap.heapIds) = sorted at *
  have hcount : sorted.length = names.length := by
    rw [hperm.length_eq, ← hrecords.length_eq, hids, hnames]
  have hsize : ∀ r ∈ sorted, r.length = kind.recordSize := by
    intro r hr
    obtain ⟨heapId, hmem, hash, i, rfl⟩ := exists_of_mem_right hrecords (hperm.mem_iff.mp hr)
    exact hkind.length_record hash i heapId (hidLength _ hmem)
  have hmessages : Forall₂ (fun r s => readRecord header file kind.idOffset 8 r =
      .ok (some s)) records serialized := by
    refine forall₂_iff_get.mpr ⟨hrecords.length_eq.symm.trans hall.length_eq.symm, ?_⟩
    intro k hk hk'
    have hid : k < heap.heapIds.length := hrecords.length_eq ▸ hk
    obtain ⟨hash, i, hrecord⟩ := hrecords.get hid hk
    rw [hrecord]
    exact readRecord_eq hkind hheaderId (hidLength _ (get_mem _ _)) (hall.get hk' hid)
  have hcollect := @collectBtreeV2Records_btlf file kind.treeType kind.recordSize _ sorted hfile
    hkind.recordSize_le (by rw [hcount, hnames]; exact hfits.1) hsize hbtlf
  rw [hcount] at hcollect
  obtain ⟨out, hfound, hout⟩ := collectFound_perm hmessages hperm
  refine ⟨out, ?_, hout⟩
  rw [readDense, hparse, ok_bind, parse_bthd hfile hkind.treeType_lt hbthd, ok_bind, hcollect,
    ok_bind, hoffset _ rfl, hfound]

/-- A message is no longer than its identifier can say. -/
theorem length_of_readRecord {header : FractalHeapHeader} {idOffset : ℕ} {r s : Bytes}
    (h : readRecord header file idOffset 8 r = .ok (some s)) :
    s.length < 2 ^ ((header.heapIdLength - 1) * 8 - header.maxHeapSize) := by
  rw [readRecord] at h
  split_ifs at h
  · cases h
  · obtain ⟨idBytes, hslice, hobject⟩ := bind_ok_iff.mp h
    obtain ⟨obj, hread, hobj⟩ := exists_ok_of_map_eq hobject
    obtain rfl := Option.some.inj hobj
    obtain ⟨offset, hdecode⟩ := FractalHeapHeader.length_of_readManagedObject hread
    have hlt := FractalHeapHeader.decodeManagedId_lt hdecode
    have hlen : idBytes.length = header.heapIdLength := by
      rw [slice] at hslice
      split_ifs at hslice
      rw [← Except.ok.inj hslice, length_take, length_drop]
      omega
    rwa [hlen] at hlt

/-- Fewer than `2 ^ 16` messages, of fewer than `2 ^ 16` bytes each, can be read back at all. -/
theorem readDense_bounds (hkind : kind.Sound) (hfile : file.length < 2 ^ 63)
    (hserialized : serialized ≠ []) (htotal : (serialized.map length).sum < 2 ^ 63)
    {idOffset : BTreeV2Header → ℕ}
    (h : StandsAt file base (buildDense kind names serialized base).blob) {out : List Bytes}
    (hread : readDense file (buildDense kind names serialized base).fractalHeapAddress
      (buildDense kind names serialized base).btreeNameIndexAddress 8 8 idOffset = .ok out) :
    out.length < 2 ^ 16 ∧ ∀ s ∈ out, s.length < 2 ^ 16 := by
  have hinput := hkind.input hserialized base
  have hbuilt := hinput.built htotal
  rw [buildDense] at h hread
  rw [standsAt_append, standsAt_append, hbuilt.end_eq] at h
  obtain ⟨header, hparse, hmax, hidLength⟩ := hbuilt.parse_header hinput hfile h.1.1
  rw [hbuilt.frhpAddr, readDense, hparse, ok_bind, parse_bthd hfile hkind.treeType_lt h.1.2,
    ok_bind, bind_ok_iff] at hread
  obtain ⟨records, hcollect, hfound⟩ := hread
  constructor
  · have hle := length_of_collectBtreeV2Records rfl hcollect
    exact (length_collectFound_le hfound).trans_lt (hle.trans_lt (Nat.mod_lt _ (by decide)))
  · intro s hs
    obtain ⟨r, -, hr⟩ := exists_of_mem_collectFound hfound hs
    have hlt := length_of_readRecord hr
    have hid := hkind.id
    have hbits : (kind.heapIdLength - 1) * 8 - kind.maxHeapSize = 16 := by omega
    rwa [hidLength, hmax, hbits] at hlt

end

/-! ### Links and attributes -/

/-- What is kept in dense storage. -/
inductive DenseContent
  | links (links : List LinkMessage)
  | attributes (attrs : List AttributeMessage)

namespace DenseContent

def messages : DenseContent → List Bytes
  | links ls => ls.map fun l => l.serialize 8
  | attributes attrs => attrs.map AttributeMessage.serializeV3

def names : DenseContent → List Bytes
  | links ls => ls.map fun l => utf8Bytes l.name
  | attributes attrs => attrs.map fun a => utf8Bytes a.name

/-- How the messages are indexed. -/
def kind : DenseContent → DenseKind
  | links _ => denseLinkKind
  | attributes _ => denseAttrKind

def build (content : DenseContent) (baseAddress : ℕ) : DenseBlob :=
  match content with
  | links ls => buildDenseLinks ls baseAddress
  | attributes attrs => buildDenseAttrs attrs baseAddress

/-- Read the storage that was built at an address. -/
def read (content : DenseContent) (fileData : Bytes) (baseAddress : ℕ) : Run (List Bytes) :=
  let dense := content.build baseAddress
  match content with
  | links _ =>
    resolveDenseEntries fileData dense.fractalHeapAddress dense.btreeNameIndexAddress 8 8
  | attributes _ =>
    extractDenseAttributes fileData dense.fractalHeapAddress dense.btreeNameIndexAddress 8 8

/-- The storage yields the messages that were given, each once. -/
def ReadBack (content : DenseContent) (fileData : Bytes) (baseAddress : ℕ) : Prop :=
  ∃ out, content.read fileData baseAddress = .ok out ∧ out.Perm content.messages

variable (content : DenseContent)

theorem kind_sound : content.kind.Sound := by
  cases content with
  | links _ => exact denseLinkKind_sound
  | attributes _ => exact denseAttrKind_sound

theorem length_names : content.names.length = content.messages.length := by
  cases content with
  | links _ => rw [names, messages, length_map, length_map]
  | attributes _ => rw [names, messages, length_map, length_map]

theorem message_ne_nil : ∀ s ∈ content.messages, s ≠ [] := by
  cases content with
  | links _ => exact forall_mem_map.mpr fun l _ => l.serialize_ne_nil 8
  | attributes _ => exact forall_mem_map.mpr fun a _ => a.serializeV3_ne_nil

theorem build_eq (base : ℕ) :
    content.build base = buildDense content.kind content.names content.messages base := by
  cases content <;> rfl

/-- Both readers know where in a record the identifier is. -/
theorem exists_read_eq (file : Bytes) (base : ℕ) : ∃ idOffset : BTreeV2Header → ℕ,
    content.read file base = readDense file (content.build base).fractalHeapAddress
        (content.build base).btreeNameIndexAddress 8 8 idOffset ∧
    ∀ header : BTreeV2Header, header.treeType = content.kind.treeType →
      idOffset header = content.kind.idOffset := by
  cases content with
  | links _ =>
    refine ⟨fun btreeHdr => if btreeHdr.treeType = 5 then 4 else 8, rfl, fun header htype => ?_⟩
    exact if_pos htype
  | attributes _ => exact ⟨fun _ => 0, rfl, fun _ _ => rfl⟩

section

variable {content} {file : Bytes} {base : ℕ} (hfile : file.length < 2 ^ 63)
  (hne : content.messages ≠ []) (htotal : (content.messages.map length).sum < 2 ^ 63)
  (h : StandsAt file base (content.build base).blob)

include hfile hne htotal h

theorem readBack_of_fits (hfits : DenseFits content.kind content.messages) :
    content.ReadBack file base := by
  obtain ⟨idOffset, hread, hoffset⟩ := content.exists_read_eq file base
  rw [content.build_eq] at h hread
  obtain ⟨out, hout, hperm⟩ := readDense_build content.kind_sound hfile content.length_names hne
    content.message_ne_nil htotal hfits hoffset h
  exact ⟨out, hread.trans hout, hperm⟩

theorem ReadBack.bounds (hback : content.ReadBack file base) :
    content.messages.length < 2 ^ 16 ∧ ∀ s ∈ content.messages, s.length < 2 ^ 16 := by
  obtain ⟨idOffset, hread, -⟩ := content.exists_read_eq file base
  rw [content.build_eq] at h hread
  obtain ⟨out, hout, hperm⟩ := hback
  obtain ⟨hcount, hlen⟩ :=
    readDense_bounds content.kind_sound hfile hne htotal h (hread.symm.trans hout)
  rw [hperm.length_eq] at hcount
  exact ⟨hcount, fun s hs => hlen s (hperm.mem_iff.mpr hs)⟩

end

/-- Storage at the start of a file is as long as its heap, but for a little. -/
theorem length_build_lt {content : DenseContent} (hne : content.messages ≠ [])
    (htotal : (content.messages.map length).sum < 2 ^ 63)
    (haddr : (content.kind.input content.messages 0).build.btreeAddr ≤ 2 ^ 62) :
    (content.build 0).blob.length < 2 ^ 63 := by
  have hheap := ((content.kind_sound.input hne 0).built htotal).end_eq
  rw [zero_add] at hheap
  rw [content.build_eq, length_buildDense]
  refine (Nat.add_lt_add_left (nodeSize_lt _ _) _).trans_le ?_
  have hsize : bthdSize = 38 := rfl
  omega

end DenseContent

/-- **Dense storage.** Links or attributes that fit are read back, each once and byte for byte, from
any file that holds their storage. Conversely, only fewer than `2 ^ 16` messages of fewer than
`2 ^ 16` bytes each are ever read back. -/
theorem denseStorage_readBack (content : DenseContent) {file : Bytes} {base : ℕ}
    (hfile : file.length < 2 ^ 63) (hne : content.messages ≠ [])
    (htotal : (content.messages.map length).sum < 2 ^ 63)
    (h : StandsAt file base (content.build base).blob) :
    (DenseFits content.kind content.messages → content.ReadBack file base) ∧
      (content.ReadBack file base → content.messages.length < 2 ^ 16 ∧
        ∀ s ∈ content.messages, s.length < 2 ^ 16) :=
  ⟨DenseContent.readBack_of_fits hfile hne htotal h,
    DenseContent.ReadBack.bounds hfile hne htotal h⟩

def threeLinks : DenseContent :=
  .links [⟨"a", .hard 96, none, .ascii⟩, ⟨"bc", .hard 192, none, .ascii⟩,
    ⟨"d", .soft "a", none, .ascii⟩]

/-- Three links, at the start of a file. -/
theorem denseStorage_readBack_threeLinks : threeLinks.ReadBack (threeLinks.build 0).blob 0 := by
  have hne : threeLinks.messages ≠ [] := by decide
  have htotal : (threeLinks.messages.map length).sum < 2 ^ 63 := by decide +kernel
  have hfile := DenseContent.length_build_lt hne htotal (by decide +kernel)
  exact (denseStorage_readBack _ hfile hne htotal (standsAt_self _)).1
    ⟨by decide, .inl (by decide +kernel)⟩

/-- An attribute of 65536 bytes: unsigned integers of one byte, in a simple dataspace. -/
def largeAttribute : AttributeMessage where
  name := "a"
  datatype := [0x10, 0, 0, 0, 1, 0, 0, 0, 0, 0, 8, 0]
  dataspace := [2, 1, 0, 1] ++ leBytes 8 65536
  rawData := replicate 65536 0

theorem length_largeAttribute : largeAttribute.serializeV3.length = 65571 := by
  have hraw : largeAttribute.rawData.length = 65536 := length_replicate
  simp only [AttributeMessage.serializeV3, AttributeMessage.serializeVersion, length_append, hraw]
  rfl

/-- A single object too long for one block is packed alone, and cut. -/
theorem btreeAddr_build_singleton {s : Bytes} {base maxHeapSize heapIdLength : ℕ}
    (hlarge : maxDirectBlockSize < s.length) :
    (buildSingleBlockFractalHeap [s] base maxHeapSize heapIdLength).btreeAddr =
      base + 146 + (5 + 8 + (maxHeapSize + 7) / 8 + 32 + 4) + 512 := by
  have hle := le_nextPowerOfTwo (dblockHeaderSize maxHeapSize + ([s].map length).sum)
  rw [buildSingleBlockFractalHeap]
  rw [if_pos (by simp only [map_cons, map_nil, sum_singleton] at hle ⊢; omega)]
  rfl

/-- An attribute of 65536 bytes is not read back. -/
theorem denseStorage_loses_largeAttribute :
    ¬ (DenseContent.attributes [largeAttribute]).ReadBack
      ((DenseContent.attributes [largeAttribute]).build 0).blob 0 := by
  intro hback
  have hmessages : (DenseContent.attributes [largeAttribute]).messages =
      [largeAttribute.serializeV3] := rfl
  have htotal : ((DenseContent.attributes [largeAttribute]).messages.map length).sum <
      2 ^ 63 := by
    rw [hmessages, map_cons, length_largeAttribute]
    decide
  have hlarge : maxDirectBlockSize < largeAttribute.serializeV3.length := by
    rw [length_largeAttribute]
    decide
  have hfile := @DenseContent.length_build_lt (.attributes [largeAttribute])
    (cons_ne_nil _ _) htotal (by rw [hmessages, btreeAddr_build_singleton hlarge]; decide)
  have hbounds := @DenseContent.ReadBack.bounds (.attributes [largeAttribute]) _ 0 hfile
    (cons_ne_nil _ _) htotal (standsAt_self _) hback
  have hlt := hbounds.2 _ (mem_singleton.mpr rfl)
  rw [length_largeAttribute] at hlt
  exact absurd hlt (by decide)

end ClawHdf5.Format
