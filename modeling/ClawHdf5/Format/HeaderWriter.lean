import Mathlib.Algebra.Group.Action.Defs
import ClawHdf5.Format.DataLayout
import ClawHdf5.Format.DenseStorage
import ClawHdf5.Format.ObjectHeader

/-!
# Writing object headers

A file is written with one header for each group and each dataset. A message gives the size of its
data in two bytes. Nothing keeps the writer from putting longer data into a message: the data of a
compact dataset are part of its layout message, and a dataset is compact with up to 65535 bytes.
-/

namespace ClawHdf5.Format

open Bytes Fallible List ObjectHeader MessageType Nat

/-! ### The writer -/

structure WriterMessage where
  msgType : MessageType
  data : Bytes
  flags : UInt8
  deriving DecidableEq

/-- The bytes of a message. The size is cut to two bytes. -/
def WriterMessage.bytes (m : WriterMessage) : Bytes :=
  leBytes 1 m.msgType.toU16 ++ leBytes 2 m.data.length ++ [m.flags] ++ m.data

/-- What the reader makes of a message. -/
def WriterMessage.read (m : WriterMessage) : HeaderMessage :=
  ⟨m.msgType, m.data.length, m.flags.toNat, none, m.data⟩

structure ObjectHeaderWriter where
  messages : List WriterMessage

namespace ObjectHeaderWriter

def new : ObjectHeaderWriter := ⟨[]⟩

def addMessageWithFlags (w : ObjectHeaderWriter) (msgType : MessageType) (data : Bytes)
    (flags : UInt8) : ObjectHeaderWriter := ⟨w.messages ++ [⟨msgType, data, flags⟩]⟩

def addMessage (w : ObjectHeaderWriter) (msgType : MessageType) (data : Bytes) :
    ObjectHeaderWriter := w.addMessageWithFlags msgType data 0

def msgBytesTotal (w : ObjectHeaderWriter) : ℕ :=
  (w.messages.map fun m => 4 + m.data.length).sum

/-- The flags, which say how wide the size of the chunk is. -/
def chunkFlags (total : ℕ) : ℕ := if total ≤ 255 then 0 else if total ≤ 65535 then 1 else 2

/-- What the checksum of a header covers. -/
def covered (w : ObjectHeaderWriter) : Bytes :=
  let flags := chunkFlags w.msgBytesTotal
  utf8Bytes "OHDR" ++ leBytes 1 2 ++ leBytes 1 flags ++ leBytes (2 ^ flags) w.msgBytesTotal ++
    w.messages.flatMap WriterMessage.bytes

/-- The bytes of a header. A type whose number has more than one byte panics. -/
def serialize (w : ObjectHeaderWriter) : Run Bytes := do
  reject (∃ m ∈ w.messages, 255 < m.msgType.toU16) .panic
  .ok (w.covered ++ checksum w.covered)

end ObjectHeaderWriter

/-! ### The headers of a file -/

/-- When fill values are written. -/
inductive FillTime
  | never
  | alloc
  | ifSet
  deriving DecidableEq

def FillTime.toByte : FillTime → UInt8
  | .never => 0x02
  | .alloc => 0x0a
  | .ifSet => 0x06

/-- The message that refers to dense storage, of links as of attributes. -/
def serializeInfo (fhAddr btreeNameAddr : ℕ) : Bytes :=
  [0, 0] ++ leBytes 8 fhAddr ++ leBytes 8 btreeNameAddr

/-- The messages of attributes: themselves, or a reference to where they are stored. -/
def attributeMessages (attrs : List AttributeMessage) (denseBlob : Option DenseBlob) :
    List WriterMessage :=
  match denseBlob with
  | some blob =>
    [⟨.attributeInfo, serializeInfo blob.fractalHeapAddress blob.btreeNameIndexAddress, 0⟩]
  | none => attrs.map fun attr => ⟨.attribute, attr.serialize, 0⟩

/-- The messages that all datasets begin with. The datatype and the dataspace are in their
serialized forms. -/
def datasetHead (dt ds : Bytes) (fillTime : FillTime) : ObjectHeaderWriter :=
  ((ObjectHeaderWriter.new.addMessageWithFlags .datatype dt 0x01).addMessage .dataspace ds)
    |>.addMessageWithFlags .fillValue [3, fillTime.toByte] 0x01

def ObjectHeaderWriter.addAttributes (w : ObjectHeaderWriter) (attrs : List AttributeMessage)
    (denseBlob : Option DenseBlob) : ObjectHeaderWriter :=
  ⟨w.messages ++ attributeMessages attrs denseBlob⟩

/-- The messages of links: themselves, or a reference to where they are stored. -/
def linkMessages (links : List LinkMessage) (denseLinkInfo : Option Bytes) : List WriterMessage :=
  match denseLinkInfo with
  | some info => [⟨.linkInfo, info, 0⟩]
  | none =>
    ⟨.linkInfo, serializeInfo (2 ^ 64 - 1) (2 ^ 64 - 1), 0⟩ ::
      links.map fun link => ⟨.link, link.serialize 8, 0⟩

/-- The header of a dataset with a layout message. -/
def datasetOh (dt ds : Bytes) (fillTime : FillTime) (layout : Bytes)
    (pipelineMessage : Option Bytes) (attrs : List AttributeMessage)
    (denseBlob : Option DenseBlob) : ObjectHeaderWriter :=
  let w := (datasetHead dt ds fillTime).addMessage .dataLayout layout
  (pipelineMessage.elim w (w.addMessage .filterPipeline)).addAttributes attrs denseBlob

section

variable (dt ds : Bytes) (attrs : List AttributeMessage) (denseBlob : Option DenseBlob)
  (fillTime : FillTime)

def buildChunkedDatasetOh (layoutMessage : Bytes) (pipelineMessage : Option Bytes) :
    ObjectHeaderWriter := datasetOh dt ds fillTime layoutMessage pipelineMessage attrs denseBlob

/-- The data lie in one run. -/
def buildDatasetOh (dataAddr dataSize : ℕ) : ObjectHeaderWriter :=
  datasetOh dt ds fillTime (leBytes 1 4 ++ leBytes 1 1 ++ leBytes 8 dataAddr ++ leBytes 8 dataSize)
    none attrs denseBlob

/-- The layout message of a compact dataset. The number of its data is cut to two bytes. -/
def compactLayout (data : Bytes) : Bytes :=
  leBytes 1 4 ++ leBytes 1 0 ++ leBytes 2 data.length ++ data

/-- The data lie in the header. -/
def buildCompactDatasetOh (data : Bytes) : ObjectHeaderWriter :=
  datasetOh dt ds fillTime (compactLayout data) none attrs denseBlob

/-- The data are those of other datasets, listed in a global heap. -/
def buildVdsDatasetOh (globalHeapAddr : ℕ) : ObjectHeaderWriter :=
  datasetOh dt ds fillTime (leBytes 1 4 ++ leBytes 1 3 ++ leBytes 8 globalHeapAddr ++ leBytes 4 1)
    none attrs denseBlob

/-- The header of a group, with its links or with a reference to where they are stored. -/
def buildGroupOh (links : List LinkMessage) (denseLinkInfo : Option Bytes) : ObjectHeaderWriter :=
  ObjectHeaderWriter.addAttributes ⟨linkMessages links denseLinkInfo⟩ attrs denseBlob

end

/-- A dataset as it is put into a file, as far as its header depends on it. -/
structure DsFlat where
  dt : Bytes
  ds : Bytes
  raw : Bytes
  attrs : List AttributeMessage
  /-- chunk options that ask for chunks -/
  chunkOptions : Bool
  maxshape : Bool
  fillTime : FillTime
  compact : Bool
  virtualSources : Bool

/-- What is computed before the header of a dataset is written: where its data or their list lie,
where its attributes are stored if they are many, and the messages of a chunked dataset. -/
structure Placement where
  address : ℕ
  attrAddress : ℕ
  layoutMessage : Bytes
  pipelineMessage : Option Bytes

/-- More attributes than this, and more links, are kept in dense storage. -/
def denseThreshold : ℕ := 8

def denseAttrs (attrs : List AttributeMessage) (address : ℕ) : Option DenseBlob :=
  if denseThreshold < attrs.length then some (buildDenseAttrs attrs address) else none

namespace DsFlat

def isVds (d : DsFlat) : Bool := d.virtualSources

def isChunked (d : DsFlat) : Bool := !d.isVds && (d.chunkOptions || d.maxshape)

def isCompact (d : DsFlat) : Bool :=
  !d.isVds && !d.isChunked && d.compact && d.raw.length ≤ 65535

def header (d : DsFlat) (place : Placement) : ObjectHeaderWriter :=
  let blob := denseAttrs d.attrs place.attrAddress
  if d.isVds then buildVdsDatasetOh d.dt d.ds d.attrs blob d.fillTime place.address
  else if d.isChunked then
    buildChunkedDatasetOh d.dt d.ds d.attrs blob d.fillTime place.layoutMessage
      place.pipelineMessage
  else if d.isCompact then buildCompactDatasetOh d.dt d.ds d.attrs blob d.fillTime d.raw
  else buildDatasetOh d.dt d.ds d.attrs blob d.fillTime place.address d.raw.length

end DsFlat

/-- What the writer of a file puts a header into it for. -/
inductive WrittenObject
  | dataset (d : DsFlat) (place : Placement)
  | group (links : List LinkMessage) (linkAddress : ℕ) (attrs : List AttributeMessage)
    (attrAddress : ℕ)

namespace WrittenObject

def header : WrittenObject → ObjectHeaderWriter
  | dataset d place => d.header place
  | group links linkAddress attrs attrAddress =>
    let blob := buildDenseLinks links linkAddress
    let info := if denseThreshold < links.length then
      some (serializeInfo blob.fractalHeapAddress blob.btreeNameIndexAddress) else none
    buildGroupOh attrs (denseAttrs attrs attrAddress) links info

def compactData : WrittenObject → Option Bytes
  | dataset d _ => if d.isCompact then some d.raw else none
  | group .. => none

/-- A header is read back: its messages, and the data of a compact dataset from the first layout
message. -/
def ReadBack (object : WrittenObject) (file : Bytes) (offset : ℕ) : Prop :=
  ∃ header, ObjectHeader.parse file offset 8 8 = .ok header ∧
    header.messages.map (fun m => (m.msgType, m.flags, m.data)) =
      object.header.messages.map (fun m => (m.msgType, m.flags.toNat, m.data)) ∧
    ∀ raw ∈ object.compactData,
      (header.messages.find? (·.msgType = .dataLayout)).map
        (fun m => DataLayout.parse m.data 8 8) = some (.ok (.compact raw))

end WrittenObject

/-! ### Reading a header back -/

namespace ObjectHeader

open WriterMessage

variable {file : Bytes} {offset pos offsetSize lengthSize : ℕ}

theorem readOffset_of_standsAt {w n : ℕ} (h : StandsAt file pos (leBytes w n))
    (hw : w = 1 ∨ w = 2 ∨ w = 4 ∨ w = 8) (hn : n < 256 ^ w) (hlt : pos + w < 2 ^ 64) :
    readOffset file pos w = .ok n := by
  have hle := h.le
  have hslice := slice_of_standsAt h
  rw [length_leBytes] at hle hslice
  rw [readOffset, ensureLen_bind hle hlt, hslice, ok_bind, if_pos hw,
    ofLeBytes_leBytes, mod_eq_of_lt hn]

/-- Messages of named types, each with a size that two bytes hold, are collected in their order. -/
theorem v2Messages_of_standsAt {ms : List WriterMessage} {bound : ℕ}
    {messages : List HeaderMessage} {continuations : List (ℕ × ℕ)}
    (hplain : ∀ m ∈ ms, m.msgType.Plain) (hfits : ∀ m ∈ ms, m.data.length < 2 ^ 16)
    (hbound : ms.length ≤ bound) (h : StandsAt file pos (ms.flatMap bytes)) :
    v2Messages file false offsetSize lengthSize (pos + (ms.flatMap bytes).length)
        bound pos messages continuations =
      .ok (messages ++ ms.map read, continuations) := by
  induction ms generalizing pos bound messages with
  | nil =>
    rw [map_nil, append_nil]
    cases bound with
    | zero => rfl
    | succ bound =>
      exact if_pos (Nat.lt_add_of_pos_right (by decide))
  | cons m ms ih =>
    obtain ⟨bound, rfl⟩ : ∃ b, bound = b + 1 := ⟨bound - 1, by simp at hbound; omega⟩
    obtain ⟨hm, hms⟩ := forall_mem_cons.mp hplain
    obtain ⟨hsize, hsizes⟩ := forall_mem_cons.mp hfits
    obtain ⟨hknown, hnil, hcont⟩ := hm
    obtain ⟨htype, hbyte⟩ := hknown.fromU16_toU16
    rw [flatMap_cons, standsAt_append, bytes] at h
    obtain ⟨hfirst, hrest⟩ := h
    simp only [standsAt_append, length_append, length_leBytes, length_singleton,
      ← add_assoc] at hfirst hrest
    obtain ⟨⟨⟨htypeAt, hsizeAt⟩, hflagsAt⟩, hdataAt⟩ := hfirst
    have hcollected : collected ⟨m.msgType, m.data.length, m.flags.toNat, none, m.data⟩ =
        [m.read] := if_neg hnil
    have hunderstood : checkUnderstood m.msgType m.flags.toNat = .ok () := by
      cases hmsg : m.msgType with
      | unknown id => exact absurd hmsg (hknown id)
      | _ => rfl
    have hend : pos + ((m :: ms).flatMap bytes).length =
        pos + 4 + m.data.length + (ms.flatMap bytes).length := by
      rw [flatMap_cons, bytes]
      simp only [length_append, length_leBytes, length_singleton]
      omega
    rw [hend, v2Messages]
    simp only [msgHeaderSize, readCreationOrder, Bool.false_eq_true, if_false]
    rw [if_neg (by omega), byteAt_bind htypeAt hbyte, leAt_of_standsAt hsizeAt hsize, ok_bind,
      byteAt_of_standsAt hflagsAt, ok_bind, ok_bind, if_neg (by omega), htype, hunderstood, ok_bind,
      slice_of_standsAt hdataAt, ok_bind, if_neg hcont, hcollected,
      ih hms hsizes (by simpa using hbound) hrest, map_cons, append_assoc, singleton_append]

theorem headV2_of_standsAt {flags total : ℕ} (hflags : flags ≤ 2)
    (htotal : total < 256 ^ 2 ^ flags) (hfile : file.length < 2 ^ 63)
    (hend : offset + 6 + 2 ^ flags + total ≤ file.length)
    (h : StandsAt file offset
      (utf8Bytes "OHDR" ++ leBytes 1 2 ++ leBytes 1 flags ++ leBytes (2 ^ flags) total)) :
    headV2 file offset =
      .ok (flags, none, offset + 6 + 2 ^ flags, offset + 6 + 2 ^ flags + total) := by
  have hsigLength : (utf8Bytes "OHDR").length = 4 := rfl
  simp only [standsAt_append, length_append, length_leBytes, hsigLength] at h
  obtain ⟨⟨⟨-, hversion⟩, hflagsAt⟩, hsize⟩ := h
  -- the flags only say how wide the size is
  have hmask : flags &&& 0x20 = 0 ∧ flags &&& 0x10 = 0 ∧ flags &&& 0x03 = flags :=
    (by decide : ∀ f < 3, f &&& 0x20 = 0 ∧ f &&& 0x10 = 0 ∧ f &&& 0x03 = f) flags (by omega)
  have hwidth : 2 ^ flags = 1 ∨ 2 ^ flags = 2 ∨ 2 ^ flags = 4 ∨ 2 ^ flags = 8 :=
    (by decide : ∀ f < 3, 2 ^ f = 1 ∨ 2 ^ f = 2 ∨ 2 ^ f = 4 ∨ 2 ^ f = 8) flags (by omega)
  have htimes : readTimes file flags (offset + 6) = .ok (none, offset + 6) :=
    if_neg (not_not.mpr hmask.1)
  have hskip : skipThresholds file flags (offset + 6) = .ok (offset + 6) :=
    if_neg (not_not.mpr hmask.2.1)
  rw [headV2, ensureLen_bind (by omega) (by omega), byteAt_bind hversion (by decide),
    reject_bind (not_not.mpr rfl), byteAt_bind hflagsAt (by omega), htimes, ok_bind]
  dsimp only
  rw [hskip, ok_bind, hmask.2.2, ensureLen_bind (by omega) (by omega),
    readOffset_of_standsAt hsize hwidth htotal (by omega), ok_bind, reject_bind (by omega)]

end ObjectHeader

namespace ObjectHeaderWriter

variable {w : ObjectHeaderWriter} {file : Bytes} {offset : ℕ}

theorem chunkFlags_spec {total : ℕ} (h : total < 2 ^ 32) :
    chunkFlags total ≤ 2 ∧ total < 256 ^ 2 ^ chunkFlags total := by
  rw [chunkFlags]
  split_ifs with hbyte hword
  · exact ⟨by decide, by omega⟩
  · exact ⟨by decide, by omega⟩
  · exact ⟨by decide, by omega⟩

theorem length_messages (ms : List WriterMessage) : (ms.flatMap WriterMessage.bytes).length =
    (ms.map fun m => 4 + m.data.length).sum := by
  rw [length_flatMap]
  simp only [WriterMessage.bytes, length_append, length_leBytes, length_singleton]

/-- **A header whose messages have sizes that two bytes hold is read back.** -/
theorem parse_serialize (hplain : ∀ m ∈ w.messages, m.msgType.Plain)
    (hfits : ∀ m ∈ w.messages, m.data.length < 2 ^ 16) (htotal : w.msgBytesTotal < 2 ^ 32)
    (hfile : file.length < 2 ^ 63) (h : StandsAt file offset (w.covered ++ checksum w.covered))
    (offsetSize lengthSize : ℕ) :
    parse file offset offsetSize lengthSize =
      .ok ⟨2, w.messages.map WriterMessage.read, none, chunkFlags w.msgBytesTotal, none, none,
        none, none⟩ := by
  have hle := h.le
  have hsum := verifyChecksum_of_standsAt h
  obtain ⟨hcovered, -⟩ := standsAt_append.mp h
  have hlen : w.covered.length = 6 + 2 ^ chunkFlags w.msgBytesTotal + w.msgBytesTotal := by
    simp only [covered, length_append, length_leBytes, length_messages]
    rfl
  rw [length_append, length_checksum] at hle
  rw [hlen, ← add_assoc, ← add_assoc] at hsum
  obtain ⟨hhead, hmessages⟩ := standsAt_append.mp hcovered
  have hsig : slice file offset (offset + 4) = .ok (utf8Bytes "OHDR") := by
    rw [append_assoc, append_assoc, standsAt_append] at hhead
    exact slice_of_standsAt hhead.1
  simp only [length_append, length_leBytes, ← add_assoc]
    at hmessages
  obtain ⟨hflags, hsize⟩ := chunkFlags_spec htotal
  have hcount : w.messages.length ≤ w.msgBytesTotal := by
    have hle := length_le_sum_of_one_le (w.messages.map fun m => 4 + m.data.length)
      (forall_mem_map.mpr fun m _ => by omega)
    rwa [length_map] at hle
  have hread : parseV2Messages file false offsetSize lengthSize
      (offset + 6 + 2 ^ chunkFlags w.msgBytesTotal)
      (offset + 6 + 2 ^ chunkFlags w.msgBytesTotal + w.msgBytesTotal) [] [] =
        .ok (w.messages.map WriterMessage.read, []) := by
    rw [parseV2Messages, Nat.add_sub_cancel_left]
    have hms := @v2Messages_of_standsAt file _ offsetSize lengthSize w.messages
      w.msgBytesTotal [] [] hplain hfits hcount hmessages
    rwa [length_messages] at hms
  have horder : decide (chunkFlags w.msgBytesTotal &&& 0x04 ≠ 0) = false :=
    (by decide : ∀ f < 3, decide (f &&& 0x04 ≠ 0) = false) _ (by omega)
  rw [parse, ensureLen_bind (by omega) (by omega), hsig, ok_bind, parseV2,
    headV2_of_standsAt hflags hsize hfile (by omega) hhead, ok_bind]
  dsimp only
  rw [ensureLen_bind (by omega) (by omega), hsum, horder, hread]
  rfl

end ObjectHeaderWriter

/-! ### What the writer puts into headers -/

section

variable {attrs : List AttributeMessage} {address : ℕ}

theorem messages_datasetOh (dt ds : Bytes) (fillTime : FillTime) (layout : Bytes)
    (pipelineMessage : Option Bytes) (denseBlob : Option DenseBlob) :
    (datasetOh dt ds fillTime layout pipelineMessage attrs denseBlob).messages =
      [⟨.datatype, dt, 1⟩, ⟨.dataspace, ds, 0⟩, ⟨.fillValue, [3, fillTime.toByte], 1⟩,
        ⟨.dataLayout, layout, 0⟩] ++
      (pipelineMessage.toList.map fun pm => ⟨.filterPipeline, pm, 0⟩) ++
      attributeMessages attrs denseBlob := by
  cases pipelineMessage <;> rfl

/-- Attributes that are not kept in dense storage have messages of sizes that two bytes hold. -/
def AttrsFit (attrs : List AttributeMessage) : Prop :=
  attrs.length ≤ denseThreshold → ∀ attr ∈ attrs, attr.serialize.length < 2 ^ 16

theorem length_serializeInfo (fhAddr btreeNameAddr : ℕ) :
    (serializeInfo fhAddr btreeNameAddr).length = 18 := by
  simp [serializeInfo]

theorem attributeMessages_spec :
    (∀ m ∈ attributeMessages attrs (denseAttrs attrs address), m.msgType.Plain) ∧
    (attributeMessages attrs (denseAttrs attrs address)).length ≤ denseThreshold ∧
    ((∀ m ∈ attributeMessages attrs (denseAttrs attrs address), m.data.length < 2 ^ 16) ↔
      AttrsFit attrs) := by
  rw [denseAttrs]
  split_ifs with hdense
  · rw [attributeMessages, forall_mem_singleton, forall_mem_singleton, length_serializeInfo]
    exact ⟨(by decide : attributeInfo.Plain), (by decide : 1 ≤ denseThreshold),
      iff_of_true (by decide) fun hle => absurd hle (not_le.mpr hdense)⟩
  · rw [attributeMessages, forall_mem_map, forall_mem_map, length_map]
    exact ⟨fun _ _ => (by decide : attribute.Plain), not_lt.mp hdense,
      fun h _ => h, fun h => h (not_lt.mp hdense)⟩

theorem linkMessages_spec (links : List LinkMessage) (fhAddr btreeNameAddr : ℕ) :
    let ms := linkMessages links (if denseThreshold < links.length then
      some (serializeInfo fhAddr btreeNameAddr) else none)
    (∀ m ∈ ms, m.msgType.Plain) ∧ ms.length ≤ denseThreshold + 1 ∧
    ((∀ m ∈ ms, m.data.length < 2 ^ 16) ↔
      (links.length ≤ denseThreshold → ∀ link ∈ links, (link.serialize 8).length < 2 ^ 16)) := by
  split_ifs with hdense
  · simp only [linkMessages, forall_mem_singleton, length_serializeInfo]
    exact ⟨(by decide : linkInfo.Plain), (by decide : 1 ≤ denseThreshold + 1),
      iff_of_true (by decide) fun hle => absurd hle (not_le.mpr hdense)⟩
  · simp only [linkMessages, forall_mem_cons, forall_mem_map, length_cons, length_map]
    exact ⟨⟨(by decide : linkInfo.Plain), fun _ _ => (by decide : link.Plain)⟩,
      succ_le_succ (not_lt.mp hdense),
      fun h _ => h.2, fun h => ⟨by decide, h (not_lt.mp hdense)⟩⟩

end

namespace DsFlat

variable {d : DsFlat} {place : Placement}

/-- A layout message and a pipeline have sizes that two bytes hold. -/
def StorageFits (d : DsFlat) (place : Placement) : Prop :=
  (d.isChunked = true → place.layoutMessage.length < 2 ^ 16 ∧
    ∀ pm ∈ place.pipelineMessage, pm.length < 2 ^ 16) ∧
  (d.isCompact = true → d.raw.length + 4 < 2 ^ 16)

theorem length_compactLayout (data : Bytes) : (compactLayout data).length = data.length + 4 := by
  simp only [compactLayout, length_append, length_leBytes]
  omega

/-- A dataset is written with the layout message of its storage. -/
theorem exists_header_eq (d : DsFlat) (place : Placement) :
    ∃ layout pipelineMessage, d.header place = datasetOh d.dt d.ds d.fillTime layout
        pipelineMessage d.attrs (denseAttrs d.attrs place.attrAddress) ∧
      (d.isCompact = true → layout = compactLayout d.raw) ∧
      ((layout.length < 2 ^ 16 ∧ ∀ pm ∈ pipelineMessage, pm.length < 2 ^ 16) ↔
        d.StorageFits place) := by
  have hvds : d.isVds = true → d.isChunked = false := by
    intro h
    rw [isChunked, h]
    rfl
  have hcompact : d.isVds = true ∨ d.isChunked = true → d.isCompact = false := by
    rintro (h | h) <;> simp [isCompact, h]
  rw [header]
  split_ifs with h₁ h₂ h₃
  · refine ⟨_, none, rfl, fun h => ?_, ?_⟩
    · rw [hcompact (.inl h₁)] at h
      cases h
    · simp [StorageFits, hvds h₁, hcompact (.inl h₁)]
  · refine ⟨_, _, rfl, fun h => ?_, ?_⟩
    · rw [hcompact (.inr h₂)] at h
      cases h
    · simp [StorageFits, h₂, hcompact (.inr h₂)]
  · refine ⟨_, none, rfl, fun _ => rfl, ?_⟩
    simp [StorageFits, h₂, h₃, length_compactLayout]
  · refine ⟨_, none, rfl, fun h => absurd h h₃, ?_⟩
    simp [StorageFits, h₂, h₃]

end DsFlat

theorem parse_compactLayout {raw : Bytes} (h : raw.length < 2 ^ 16) :
    DataLayout.parse (compactLayout raw) 8 8 = .ok (.compact raw) := by
  have hstands := standsAt_self (compactLayout raw)
  have hlen := DsFlat.length_compactLayout raw
  simp only [compactLayout, standsAt_append, length_append, length_leBytes] at hstands
  obtain ⟨⟨⟨hversion, hclass⟩, hsize⟩, hraw⟩ := hstands
  rw [← compactLayout] at hversion hclass hsize hraw
  rw [DataLayout.parse, ensureLen_bind (by omega) (by decide), byteAt_bind hversion (by decide),
    byteAt_bind hclass (by decide)]
  simp only [DataLayout.parseV4, DataLayout.parseCompact]
  rw [ensureLen_bind (by omega) (by decide), leAt_of_standsAt hsize h, ok_bind,
    ensureLen_bind (by omega) (by omega), slice_of_standsAt hraw, ok_bind]

namespace WrittenObject

/-- Every message has a size that two bytes hold. -/
def Fits : WrittenObject → Prop
  | dataset d place => d.dt.length < 2 ^ 16 ∧ d.ds.length < 2 ^ 16 ∧ d.StorageFits place ∧
      AttrsFit d.attrs
  | group links _ attrs _ =>
    (links.length ≤ denseThreshold → ∀ link ∈ links, (link.serialize 8).length < 2 ^ 16) ∧
      AttrsFit attrs

/-- The messages of a header: of named types, not many, and of sizes that two bytes hold if the
object fits. -/
theorem messages_spec (object : WrittenObject) :
    (∀ m ∈ object.header.messages, m.msgType.Plain) ∧ object.header.messages.length ≤ 17 ∧
    ((∀ m ∈ object.header.messages, m.data.length < 2 ^ 16) ↔ object.Fits) := by
  cases object with
  | dataset d place =>
    obtain ⟨layout, pipeline, heq, -, hfits⟩ := d.exists_header_eq place
    obtain ⟨hplain, hcount, hattrs⟩ := @attributeMessages_spec d.attrs place.attrAddress
    rw [header, heq, messages_datasetOh]
    have hpipeline : pipeline.toList.length ≤ 1 := by cases pipeline <;> simp
    simp only [forall_mem_append, forall_mem_cons, forall_mem_map,
      Option.mem_toList, length_append, length_map, length_cons, length_nil]
    refine ⟨⟨⟨?_, fun _ _ => (by decide : filterPipeline.Plain)⟩, hplain⟩, ?_, ?_⟩
    · exact ⟨by decide, by decide, by decide, by decide, fun _ hm => (nomatch hm)⟩
    · rw [denseThreshold] at hcount
      omega
    · rw [Fits, ← hfits, ← hattrs]
      simp [and_assoc]
  | group links linkAddress attrs attrAddress =>
    obtain ⟨hplain, hcount, hattrs⟩ := @attributeMessages_spec attrs attrAddress
    obtain ⟨hlinks, hlinkCount, hlinksFit⟩ := linkMessages_spec links
      (buildDenseLinks links linkAddress).fractalHeapAddress
      (buildDenseLinks links linkAddress).btreeNameIndexAddress
    simp only [header, buildGroupOh, ObjectHeaderWriter.addAttributes, forall_mem_append,
      length_append]
    exact ⟨⟨hlinks, hplain⟩, Nat.add_le_add hlinkCount hcount, and_congr hlinksFit hattrs⟩

variable {object : WrittenObject} {file : Bytes} {offset : ℕ}

theorem serialize_eq (object : WrittenObject) : object.header.serialize =
    .ok (object.header.covered ++ checksum object.header.covered) := by
  rw [ObjectHeaderWriter.serialize, reject_of_not, ok_bind]
  rintro ⟨m, hm, hlarge⟩
  have hbyte := (object.messages_spec.1 m hm).1.fromU16_toU16.2
  omega

theorem readBack_of_fits (hfits : object.Fits) (hfile : file.length < 2 ^ 63)
    (h : StandsAt file offset (object.header.covered ++ checksum object.header.covered)) :
    object.ReadBack file offset := by
  obtain ⟨hplain, hcount, hiff⟩ := object.messages_spec
  have hsizes := hiff.mpr hfits
  have htotal : object.header.msgBytesTotal < 2 ^ 32 := by
    have hle := sum_le_card_nsmul (object.header.messages.map fun m => 4 + m.data.length)
      (2 ^ 17) (forall_mem_map.mpr fun m hm => by have := hsizes m hm; omega)
    rw [length_map, smul_eq_mul] at hle
    rw [ObjectHeaderWriter.msgBytesTotal]
    omega
  refine ⟨_, ObjectHeaderWriter.parse_serialize hplain hsizes htotal hfile h 8 8, ?_, ?_⟩
  · rw [map_map]
    rfl
  · intro raw hraw
    cases object with
    | group => cases hraw
    | dataset d place =>
      obtain ⟨layout, pipeline, heq, hlayout, -⟩ := d.exists_header_eq place
      rw [compactData, Option.mem_ite_none_right] at hraw
      obtain ⟨hcompact, hraw⟩ := hraw
      obtain rfl := Option.some.inj hraw
      rw [header, heq, messages_datasetOh, hlayout hcompact]
      have hlen : d.raw.length < 2 ^ 16 := by
        have := hfits.2.2.1.2 hcompact
        omega
      exact congrArg some (parse_compactLayout hlen)

/-- Only an object that fits is read back: the reader returns no longer messages. -/
theorem fits_of_readBack
    (h : StandsAt file offset (object.header.covered ++ checksum object.header.covered))
    (hback : object.ReadBack file offset) : object.Fits := by
  obtain ⟨header, hparse, hmessages, -⟩ := hback
  have hsig : slice file offset (offset + 4) = .ok (utf8Bytes "OHDR") := by
    rw [ObjectHeaderWriter.covered] at h
    simp only [append_assoc] at h
    exact slice_of_standsAt (standsAt_append.mp h).1
  obtain ⟨-, -, hparse⟩ := bind_ok_iff.mp hparse
  rw [hsig] at hparse
  have hsized := parseV2_sized hparse
  refine object.messages_spec.2.2.mp fun m hm => ?_
  -- the message is among those that are read
  have hmem : (m.msgType, m.flags.toNat, m.data) ∈
      header.messages.map (fun m => (m.msgType, m.flags, m.data)) :=
    hmessages ▸ mem_map_of_mem hm
  obtain ⟨m', hm', heq⟩ := mem_map.mp hmem
  obtain ⟨hlen, hlt⟩ := hsized m' hm'
  rw [Prod.mk.injEq, Prod.mk.injEq] at heq
  rw [← heq.2.2]
  exact hlen ▸ hlt

end WrittenObject

/-- **When a header is read back**: exactly if every message has a size that two bytes hold. For a
compact dataset that is not so from 65532 bytes on. -/
theorem header_readBack_iff (object : WrittenObject) :
    ∃ bytes, object.header.serialize = .ok bytes ∧
      ∀ file offset, file.length < 2 ^ 63 → StandsAt file offset bytes →
        (object.ReadBack file offset ↔ object.Fits) :=
  ⟨_, object.serialize_eq, fun _ _ hfile h =>
    ⟨WrittenObject.fits_of_readBack h, fun hfits => WrittenObject.readBack_of_fits hfits hfile h⟩⟩

/-- A dataset of bytes, to be stored in its header. -/
def compactBytes (raw : Bytes) (attrs : List AttributeMessage) : WrittenObject :=
  .dataset ⟨[0x10, 0, 0, 0, 1, 0, 0, 0, 0, 0, 8, 0], [2, 1, 0, 1] ++ leBytes 8 raw.length, raw,
    attrs, false, false, .never, true, false⟩ ⟨0, 0, [], none⟩

theorem header_readBack_small :
    ∃ bytes, (compactBytes [0, 1, 0] [⟨"n", [0x10], [2], [7]⟩]).header.serialize = .ok bytes ∧
      (compactBytes [0, 1, 0] [⟨"n", [0x10], [2], [7]⟩]).ReadBack bytes 0 := by
  obtain ⟨bytes, hbytes, h⟩ :=
    header_readBack_iff (compactBytes [0, 1, 0] [⟨"n", [0x10], [2], [7]⟩])
  have hlen : ∀ bytes, (compactBytes [0, 1, 0] [⟨"n", [0x10], [2], [7]⟩]).header.serialize =
      .ok bytes → bytes.length < 2 ^ 63 := by decide +kernel
  refine ⟨bytes, hbytes, (h bytes 0 (hlen bytes hbytes) (standsAt_self bytes)).mpr ?_⟩
  exact ⟨by decide, by decide, ⟨fun h => absurd h (by decide), fun _ => by decide⟩,
    fun _ => by decide +kernel⟩

theorem compactBytes_lost {raw : Bytes} (hlo : 65532 ≤ raw.length) (hhi : raw.length ≤ 65535) :
    (compactBytes raw []).compactData = some raw ∧
      ∃ bytes, (compactBytes raw []).header.serialize = .ok bytes ∧
        ¬(compactBytes raw []).ReadBack bytes 0 := by
  have hcompact : (compactBytes raw []).compactData = some raw := if_pos (decide_eq_true hhi)
  refine ⟨hcompact, _, WrittenObject.serialize_eq _, fun hback => ?_⟩
  obtain ⟨-, -, hstorage, -⟩ := WrittenObject.fits_of_readBack (standsAt_self _) hback
  have hsize : raw.length + 4 < 2 ^ 16 := hstorage.2 (decide_eq_true hhi)
  omega

/-- A dataset of 65532 bytes is stored in its header and not read back. -/
theorem compact_not_readBack :
    (compactBytes (replicate 65532 0) []).compactData = some (replicate 65532 0) ∧
      ∃ bytes, (compactBytes (replicate 65532 0) []).header.serialize = .ok bytes ∧
        ¬(compactBytes (replicate 65532 0) []).ReadBack bytes 0 :=
  compactBytes_lost length_replicate.ge (length_replicate.le.trans (by decide))

end ClawHdf5.Format
