import ClawHdf5.Format.Checksum

/-!
# Object headers

Every object of a file has a header, a list of messages. A header of version 2 keeps the messages of
its first chunk behind a prefix and closes the chunk with a checksum; a message of a certain type
refers to a further chunk. Version 1 has no signature and no checksum.
-/

namespace ClawHdf5.Format

open Bytes Fallible Except

/-! ### Types of messages -/

inductive MessageType
  | nil
  | dataspace
  | linkInfo
  | datatype
  | fillValueOld
  | fillValue
  | link
  | dataLayout
  | groupInfo
  | filterPipeline
  | attribute
  | objectHeaderContinuation
  | symbolTable
  | objectModificationTime
  | bTreeKValues
  | sharedMessageTable
  | attributeInfo
  | objectReferenceCount
  | unknown (id : ℕ)
  deriving DecidableEq

namespace MessageType

def fromU16 : ℕ → MessageType
  | 0x0000 => .nil
  | 0x0001 => .dataspace
  | 0x0002 => .linkInfo
  | 0x0003 => .datatype
  | 0x0004 => .fillValueOld
  | 0x0005 => .fillValue
  | 0x0006 => .link
  | 0x0008 => .dataLayout
  | 0x000a => .groupInfo
  | 0x000b => .filterPipeline
  | 0x000c => .attribute
  | 0x000f => .sharedMessageTable
  | 0x0010 => .objectHeaderContinuation
  | 0x0011 => .symbolTable
  | 0x0012 => .objectModificationTime
  | 0x0013 => .bTreeKValues
  | 0x0015 => .attributeInfo
  | 0x0016 => .objectReferenceCount
  | other => .unknown other

def toU16 : MessageType → ℕ
  | .nil => 0x0000
  | .dataspace => 0x0001
  | .linkInfo => 0x0002
  | .datatype => 0x0003
  | .fillValueOld => 0x0004
  | .fillValue => 0x0005
  | .link => 0x0006
  | .dataLayout => 0x0008
  | .groupInfo => 0x000a
  | .filterPipeline => 0x000b
  | .attribute => 0x000c
  | .sharedMessageTable => 0x000f
  | .objectHeaderContinuation => 0x0010
  | .symbolTable => 0x0011
  | .objectModificationTime => 0x0012
  | .bTreeKValues => 0x0013
  | .attributeInfo => 0x0015
  | .objectReferenceCount => 0x0016
  | .unknown id => id

/-- A type that has a name. -/
def Known (t : MessageType) : Prop := ∀ id, t ≠ .unknown id

instance (t : MessageType) : Decidable t.Known :=
  match t with
  | .unknown id => isFalse fun h => h id rfl
  | .nil | .dataspace | .linkInfo | .datatype | .fillValueOld | .fillValue | .link | .dataLayout
  | .groupInfo | .filterPipeline | .attribute | .objectHeaderContinuation | .symbolTable
  | .objectModificationTime | .bTreeKValues | .sharedMessageTable | .attributeInfo
  | .objectReferenceCount => isTrue fun _ => nofun

/-- A type of messages that a header is read for. -/
def Plain (t : MessageType) : Prop := t.Known ∧ t ≠ .nil ∧ t ≠ .objectHeaderContinuation
  deriving Decidable

theorem Known.fromU16_toU16 {t : MessageType} (h : t.Known) :
    fromU16 t.toU16 = t ∧ t.toU16 < 256 := by
  cases t with
  | unknown id => exact absurd rfl (h id)
  | _ => exact ⟨rfl, by decide⟩

end MessageType

/-! ### Headers -/

structure HeaderMessage where
  msgType : MessageType
  size : ℕ
  flags : ℕ
  creationOrder : Option ℕ
  data : Bytes
  deriving DecidableEq

structure ObjectHeader where
  version : ℕ
  messages : List HeaderMessage
  referenceCount : Option ℕ
  flags : ℕ
  accessTime : Option ℕ
  modificationTime : Option ℕ
  changeTime : Option ℕ
  birthTime : Option ℕ
  deriving DecidableEq

namespace ObjectHeader

/-- An address or length. Here it may have one byte. -/
def readOffset (data : Bytes) (pos size : ℕ) : Run ℕ := do
  ensureLen data pos size
  let field ← slice data pos (pos + size)
  if size = 1 ∨ size = 2 ∨ size = 4 ∨ size = 8 then .ok (ofLeBytes field)
  else fail (.invalidOffsetSize size)

/-- A message of unknown type may be skipped, unless it says that it must be understood. -/
def checkUnderstood (msgType : MessageType) (flags : ℕ) : Run Unit :=
  match msgType with
  | .unknown id => reject (flags &&& 0x08 ≠ 0) (.error (.unsupportedMessage id))
  | _ => .ok ()

/-- Where a message says that the header continues: an address and a length. -/
def continuation (msgData : Bytes) (offsetSize lengthSize : ℕ) : Run (Option (ℕ × ℕ)) :=
  if msgData.length < offsetSize + lengthSize then .ok none
  else do
    let contOffset ← readOffset msgData 0 offsetSize
    let contLength ← readOffset msgData offsetSize lengthSize
    .ok (some (contOffset, contLength))

/-- A message is collected, unless it is empty space. -/
def collected (m : HeaderMessage) : List HeaderMessage := if m.msgType = .nil then [] else [m]

/-! ### Version 1 -/

section

variable (data : Bytes) (offsetSize lengthSize : ℕ)

/-- The messages that a message stands for: itself, unless it is empty space, and what follows where
the header continues. -/
def acceptV1 (follow : ℕ → ℕ → Run (List HeaderMessage)) (msgType : MessageType)
    (msgSize flags : ℕ) (msgData : Bytes) : Run (List HeaderMessage) := do
  checkUnderstood msgType flags
  let own := collected ⟨msgType, msgSize, flags, none, msgData⟩
  if msgType = .objectHeaderContinuation then
    match ← continuation msgData offsetSize lengthSize with
    | none => .ok own
    | some (contOffset, contLength) => do
      let continued ← follow contOffset contLength
      .ok (own ++ continued)
  else .ok own

/-- The messages of a chunk that is not the first, from `pos` up to `finish`. The first number
bounds their count. -/
def v1Continued (follow : ℕ → ℕ → Run (List HeaderMessage)) (finish : ℕ) :
    (bound pos : ℕ) → Run (List HeaderMessage)
  | 0, _ => .ok []
  | bound + 1, pos =>
    if finish < pos + 8 then .ok []
    else do
      let msgType ← leAt data pos 2
      let msgSize ← leAt data (pos + 2) 2
      let flags ← byteAt data (pos + 4)
      if finish < pos + 8 + msgSize then .ok []
      else do
        let msgData ← slice data (pos + 8) (pos + 8 + msgSize)
        let accepted ← acceptV1 offsetSize lengthSize follow (.fromU16 msgType) msgSize flags
          msgData
        let rest ← v1Continued follow finish bound (pos + 8 + msgSize)
        .ok (accepted ++ rest)

/-- The messages of the chunk at `offset`, with those of the chunks it refers to, up to a depth.
Each message has at least eight bytes. -/
def parseV1Continuation : (depth offset length : ℕ) → Run (List HeaderMessage)
  | 0, _, _ => fail .nestingDepthExceeded
  | depth + 1, offset, length => do
    ensureLen data offset length
    v1Continued data offsetSize lengthSize (parseV1Continuation depth) (offset + length) length
      offset

/-- The messages of the first chunk, of which the header gives the number. -/
def v1Messages (msgEnd : ℕ) : (numMessages pos : ℕ) → Run (List HeaderMessage)
  | 0, _ => .ok []
  | numMessages + 1, pos =>
    if msgEnd < pos + 8 then .ok []
    else do
      let msgType ← leAt data pos 2
      let msgSize ← leAt data (pos + 2) 2
      let flags ← byteAt data (pos + 4)
      ensureLen data (pos + 8) msgSize
      let msgData ← slice data (pos + 8) (pos + 8 + msgSize)
      let accepted ← acceptV1 offsetSize lengthSize
        (parseV1Continuation data offsetSize lengthSize 32) (.fromU16 msgType) msgSize flags msgData
      let rest ← v1Messages msgEnd numMessages (pos + 8 + msgSize)
      .ok (accepted ++ rest)

def parseV1 (offset : ℕ) : Run ObjectHeader := do
  ensureLen data offset 12
  let version ← byteAt data offset
  reject (version ≠ 1) (.error (.invalidObjectHeaderVersion version))
  let numMessages ← leAt data (offset + 2) 2
  let referenceCount ← leAt data (offset + 4) 4
  let headerDataSize ← leAt data (offset + 8) 4
  -- the prefix is padded to sixteen bytes
  let msgStart := offset + 16
  reject (2 ^ 64 ≤ msgStart) (.error (.unexpectedEof (2 ^ 64 - 1) data.length))
  ensureLen data msgStart headerDataSize
  let messages ← v1Messages data offsetSize lengthSize (msgStart + headerDataSize) numMessages
    msgStart
  .ok ⟨1, messages, some referenceCount, 0, none, none, none, none⟩

end

/-! ### Version 2 -/

section

variable (data : Bytes) (hasCreationOrder : Bool) (offsetSize lengthSize : ℕ)

/-- The size of what stands before the data of a message. -/
def msgHeaderSize : ℕ := if hasCreationOrder then 6 else 4

/-- The order in which a message was created, if the header tracks it. -/
def readCreationOrder (pos : ℕ) : Run (Option ℕ) :=
  if hasCreationOrder then some <$> leAt data pos 2 else .ok none

/-- The messages from `pos` up to `finish`, behind those found already, and the chunks they refer
to. The first number bounds their count. -/
def v2Messages (finish : ℕ) : (bound pos : ℕ) → (messages : List HeaderMessage) →
    (continuations : List (ℕ × ℕ)) → Run (List HeaderMessage × List (ℕ × ℕ))
  | 0, _, messages, continuations => .ok (messages, continuations)
  | bound + 1, pos, messages, continuations =>
    if finish < pos + msgHeaderSize hasCreationOrder then .ok (messages, continuations)
    else do
      let msgTypeRaw ← byteAt data pos
      let msgSize ← leAt data (pos + 1) 2
      let flags ← byteAt data (pos + 3)
      let creationOrder ← readCreationOrder data hasCreationOrder (pos + 4)
      let pos := pos + msgHeaderSize hasCreationOrder
      -- what is left may be padding
      if finish < pos + msgSize then .ok (messages, continuations)
      else do
        let msgType := MessageType.fromU16 msgTypeRaw
        checkUnderstood msgType flags
        let msgData ← slice data pos (pos + msgSize)
        if msgType = .objectHeaderContinuation then do
          let continued ← continuation msgData offsetSize lengthSize
          v2Messages finish bound (pos + msgSize) messages (continuations ++ continued.toList)
        else
          v2Messages finish bound (pos + msgSize)
            (messages ++ collected ⟨msgType, msgSize, flags, creationOrder, msgData⟩) continuations

/-- Each message has at least four bytes. -/
def parseV2Messages (start finish : ℕ) (messages : List HeaderMessage)
    (continuations : List (ℕ × ℕ)) : Run (List HeaderMessage × List (ℕ × ℕ)) :=
  v2Messages data hasCreationOrder offsetSize lengthSize finish (finish - start) start messages
    continuations

/-- The messages of a further chunk. -/
def parseV2Continuation (offset length : ℕ) (messages : List HeaderMessage)
    (continuations : List (ℕ × ℕ)) : Run (List HeaderMessage × List (ℕ × ℕ)) := do
  ensureLen data offset length
  reject (length < 8) (.error (.unexpectedEof 8 length))
  ensureLen data offset 4
  let signature ← slice data offset (offset + 4)
  reject (signature ≠ utf8Bytes "OCHK") (.error .invalidObjectHeaderSignature)
  let checksumPos := offset + length - 4
  verifyChecksum data offset checksumPos
  parseV2Messages data hasCreationOrder offsetSize lengthSize (offset + 4) checksumPos messages
    continuations

/-- The messages of the further chunks, the last one first. -/
def followContinuations : (remaining : ℕ) → (messages : List HeaderMessage) →
    (continuations : List (ℕ × ℕ)) → Run (List HeaderMessage)
  | remaining, messages, continuations =>
    match continuations.getLast? with
    | none => .ok messages
    | some (contOffset, contLength) =>
      match remaining with
      | 0 => fail .nestingDepthExceeded
      | remaining + 1 => do
        let (messages, continuations) ← parseV2Continuation data hasCreationOrder offsetSize
          lengthSize contOffset contLength messages continuations.dropLast
        followContinuations remaining messages continuations

end

/-- The four times of a header, if it has them, and where the next field is. -/
def readTimes (data : Bytes) (flags pos : ℕ) : Run (Option (ℕ × ℕ × ℕ × ℕ) × ℕ) :=
  if flags &&& 0x20 ≠ 0 then do
    ensureLen data pos 16
    let access ← leAt data pos 4
    let modification ← leAt data (pos + 4) 4
    let change ← leAt data (pos + 8) 4
    let birth ← leAt data (pos + 12) 4
    .ok (some (access, modification, change, birth), pos + 16)
  else .ok (none, pos)

/-- Where the next field is behind the thresholds for the storage of attributes, if there are such.
-/
def skipThresholds (data : Bytes) (flags pos : ℕ) : Run ℕ :=
  if flags &&& 0x10 ≠ 0 then do
    ensureLen data pos 4
    .ok (pos + 4)
  else .ok pos

/-- What stands before the messages of a header: its flags and times, and where the messages of its
first chunk begin and end. -/
def headV2 (data : Bytes) (offset : ℕ) : Run (ℕ × Option (ℕ × ℕ × ℕ × ℕ) × ℕ × ℕ) := do
  ensureLen data offset 6
  let version ← byteAt data (offset + 4)
  reject (version ≠ 2) (.error (.invalidObjectHeaderVersion version))
  let flags ← byteAt data (offset + 5)
  let (times, pos) ← readTimes data flags (offset + 6)
  let pos ← skipThresholds data flags pos
  let chunkSizeWidth := 2 ^ (flags &&& 0x03)
  ensureLen data pos chunkSizeWidth
  let chunk0Size ← readOffset data pos chunkSizeWidth
  let start := pos + chunkSizeWidth
  let finish := start + chunk0Size
  reject (2 ^ 64 ≤ finish) (.error (.unexpectedEof (2 ^ 64 - 1) data.length))
  .ok (flags, times, start, finish)

def parseV2 (data : Bytes) (offset offsetSize lengthSize : ℕ) : Run ObjectHeader := do
  let (flags, times, start, finish) ← headV2 data offset
  ensureLen data finish 4
  verifyChecksum data offset finish
  let hasCreationOrder : Bool := flags &&& 0x04 ≠ 0
  let (messages, continuations) ← parseV2Messages data hasCreationOrder offsetSize lengthSize start
    finish [] []
  let messages ← followContinuations data hasCreationOrder offsetSize lengthSize 256 messages
    continuations
  .ok ⟨2, messages, none, flags, times.map (·.1), times.map (·.2.1), times.map (·.2.2.1),
    times.map (·.2.2.2)⟩

def parse (data : Bytes) (offset offsetSize lengthSize : ℕ) : Run ObjectHeader := do
  ensureLen data offset 4
  let signature ← slice data offset (offset + 4)
  if signature = utf8Bytes "OHDR" then parseV2 data offset offsetSize lengthSize
  else parseV1 data offsetSize lengthSize offset

/-! ### Sizes of messages -/

/-- Every message has the size it gives, and that size has two bytes. -/
def Sized (messages : List HeaderMessage) : Prop :=
  ∀ m ∈ messages, m.data.length = m.size ∧ m.size < 2 ^ 16

theorem sized_nil : Sized [] := fun _ hm => absurd hm List.not_mem_nil

theorem sized_collected {m : HeaderMessage} (hdata : m.data.length = m.size)
    (hsize : m.size < 2 ^ 16) : Sized (collected m) := by
  rw [collected]
  split_ifs
  · exact sized_nil
  · exact List.forall_mem_singleton.mpr ⟨hdata, hsize⟩

variable {data : Bytes} {offsetSize lengthSize pos finish : ℕ}

section

variable {hasCreationOrder : Bool} {messages : List HeaderMessage} {continuations : List (ℕ × ℕ)}
  {result : List HeaderMessage × List (ℕ × ℕ)}

theorem v2Messages_sized {bound : ℕ}
    (h : v2Messages data hasCreationOrder offsetSize lengthSize finish bound pos messages
      continuations = .ok result) (hsized : Sized messages) : Sized result.1 := by
  induction bound generalizing pos messages continuations with
  | zero => exact ok.inj h ▸ hsized
  | succ bound ih =>
    rw [v2Messages] at h
    split_ifs at h
    · exact ok.inj h ▸ hsized
    obtain ⟨msgTypeRaw, -, h⟩ := bind_ok_iff.mp h
    obtain ⟨msgSize, hsize, h⟩ := bind_ok_iff.mp h
    obtain ⟨flags, -, h⟩ := bind_ok_iff.mp h
    obtain ⟨creationOrder, -, h⟩ := bind_ok_iff.mp h
    dsimp only at h
    split_ifs at h with hend hcont
    · exact ok.inj h ▸ hsized
    · obtain ⟨-, -, h⟩ := bind_ok_iff.mp h
      obtain ⟨msgData, -, h⟩ := bind_ok_iff.mp h
      obtain ⟨continued, -, h⟩ := bind_ok_iff.mp h
      exact ih h hsized
    · obtain ⟨-, -, h⟩ := bind_ok_iff.mp h
      obtain ⟨msgData, hdata, h⟩ := bind_ok_iff.mp h
      have hlen : msgData.length = msgSize := by
        rw [length_of_slice hdata, Nat.add_sub_cancel_left]
      exact ih h (List.forall_mem_append.mpr ⟨hsized, sized_collected hlen (lt_of_leAt hsize)⟩)

theorem parseV2Continuation_sized {offset length : ℕ}
    (h : parseV2Continuation data hasCreationOrder offsetSize lengthSize offset length messages
      continuations = .ok result) (hsized : Sized messages) : Sized result.1 := by
  obtain ⟨-, -, h⟩ := bind_ok_iff.mp h
  obtain ⟨-, -, h⟩ := bind_ok_iff.mp h
  obtain ⟨-, -, h⟩ := bind_ok_iff.mp h
  obtain ⟨signature, -, h⟩ := bind_ok_iff.mp h
  obtain ⟨-, -, h⟩ := bind_ok_iff.mp h
  obtain ⟨-, -, h⟩ := bind_ok_iff.mp h
  exact v2Messages_sized h hsized

theorem followContinuations_sized {remaining : ℕ} {found : List HeaderMessage}
    (h : followContinuations data hasCreationOrder offsetSize lengthSize remaining messages
      continuations = .ok found) (hsized : Sized messages) : Sized found := by
  induction remaining generalizing messages continuations with
  | zero =>
    rw [followContinuations] at h
    split at h
    · exact ok.inj h ▸ hsized
    · cases h
  | succ remaining ih =>
    rw [followContinuations] at h
    split at h
    · exact ok.inj h ▸ hsized
    · obtain ⟨next, hnext, h⟩ := bind_ok_iff.mp h
      exact ih h (parseV2Continuation_sized hnext hsized)

end

/-- Whatever the bytes are, a message that is read has the size it gives, and fewer than `2 ^ 16`
bytes. -/
theorem parseV2_sized {offset : ℕ} {header : ObjectHeader}
    (h : parseV2 data offset offsetSize lengthSize = .ok header) : Sized header.messages := by
  obtain ⟨head, -, h⟩ := bind_ok_iff.mp h
  obtain ⟨-, -, h⟩ := bind_ok_iff.mp h
  obtain ⟨-, -, h⟩ := bind_ok_iff.mp h
  obtain ⟨chunk0, hchunk0, h⟩ := bind_ok_iff.mp h
  obtain ⟨messages, hmessages, h⟩ := bind_ok_iff.mp h
  have hsized : Sized chunk0.1 := v2Messages_sized hchunk0 sized_nil
  exact ok.inj h ▸ followContinuations_sized hmessages hsized

end ObjectHeader

end ClawHdf5.Format
