import ClawHdf5.Agent.Cache
import ClawHdf5.Math.Reader
import ClawHdf5.Math.RecordLog
import ClawHdf5.Math.Storage

/-!
# The write-ahead log of an agent store

The log beside an agent store, as a byte string. A nine-byte header has the format version and a
count of entries that is brought up to date after every eighth append. In the current version each
entry is followed by a hash that chains it to the entries before. A reader takes entries until the
bytes run out; an entry that is there but does not decode, or does not continue the chain, is an
error.
-/

namespace ClawHdf5.Agent

open Bytes Fallible Overwrite Reader List UInt32

variable {entry : WalEntry} {fileLen : ℕ} {tip : Fixed 32}

inductive MemoryError
  | io (e : IoError)
  | hdf5 (message : String)
  | schema (message : String)
  | notFound (message : String)
  | provenance (message : String)
  | integrity (message : String)
  deriving DecidableEq

/-- The error of a read past the end of a file. -/
def MemoryError.eof : MemoryError := .io .unexpectedEof

/-- An entry of the log: a saved memory, the deletion of one by its index, or an update of
activation weights, which has no content yet. -/
inductive WalEntry
  | save (entry : MemoryEntry)
  | tombstone (timestamp : UInt64) (index : ℕ)
  | activationUpdate (timestamp : UInt64)
  deriving DecidableEq

/-- The format version of a log: without and with chained hashes. -/
inductive WalVersion
  | v1
  | v2
  deriving DecidableEq

namespace WalVersion

def toByte : WalVersion → UInt8
  | v1 => 1
  | v2 => 2

def ofByte (b : UInt8) : Option WalVersion :=
  if b = 1 then some v1 else if b = 2 then some v2 else none

@[simp] theorem ofByte_toByte (v : WalVersion) : ofByte v.toByte = some v := by
  cases v <;> rfl

end WalVersion

def walMagic : Bytes := [0x45, 0x48, 0x57, 0x4C]

/-- How many appends share one update of the header's count. -/
def groupCommitSize : ℕ := 8

/-! ### Bytes of an entry -/

/-- A string behind its length. -/
def serializeStr (s : String) : Bytes :=
  le32 (UInt32.ofNat (utf8Bytes s).length) ++ utf8Bytes s

namespace WalEntry

/-- The bytes written for an entry, without its hash. -/
def serialize : WalEntry → Bytes
  | save e =>
    0x01 :: (le64 e.timestamp ++ (serializeStr e.chunk ++
      (le32 (UInt32.ofNat e.embedding.length) ++ e.embedding.flatMap le32 ++
        (serializeStr e.sourceChannel ++ (serializeStr e.sessionId ++ serializeStr e.tags)))))
  | tombstone timestamp index => 0x02 :: (le64 timestamp ++ le32 (UInt32.ofNat index))
  | activationUpdate timestamp => 0x03 :: le64 timestamp

end WalEntry

inductive WalEntryType
  | save
  | tombstone
  | activationUpdate
  deriving DecidableEq

def WalEntryType.fromU8 (b : UInt8) : Option WalEntryType :=
  if b = 0x01 then some save
  else if b = 0x02 then some tombstone
  else if b = 0x03 then some activationUpdate
  else none

/-- The length of an invalid piece: the longest one at the front that is the start of a character,
or one byte. -/
def invalidLen : Bytes → ℕ
  | [] => 0
  | b :: rest =>
    let second := rest.getD 0 0
    let third := rest.getD 1 0
    if 0xe0 ≤ b ∧ b ≤ 0xef then
      let lo : UInt8 := if b = 0xe0 then 0xa0 else 0x80
      let hi : UInt8 := if b = 0xed then 0x9f else 0xbf
      if lo ≤ second ∧ second ≤ hi then 2 else 1
    else if 0xf0 ≤ b ∧ b ≤ 0xf4 then
      let lo : UInt8 := if b = 0xf0 then 0x90 else 0x80
      let hi : UInt8 := if b = 0xf4 then 0x8f else 0xbf
      if lo ≤ second ∧ second ≤ hi then if 0x80 ≤ third ∧ third ≤ 0xbf then 3 else 2 else 1
    else 1

/-- The first character of a byte sequence and its width. -/
def firstChar (bs : Bytes) : Option (Char × ℕ) :=
  [1, 2, 3, 4].findSome? fun w =>
    match (fromUtf8 (bs.take w)).map String.toList with
    | some [c] => some (c, w)
    | _ => none

/-- What is said about bytes that are no string. The length of the invalid piece is left out where
the bytes end within a character. -/
def utf8Error : ℕ → ℕ → Bytes → String
  | 0, _, _ => ""
  | fuel + 1, validUpTo, bs =>
    match firstChar bs with
    | some (_, w) => utf8Error fuel (validUpTo + w) (bs.drop w)
    | none =>
      if 0xc2 ≤ bs.headD 0 ∧ bs.headD 0 ≤ 0xf4 ∧ invalidLen bs = bs.length then
        s!"incomplete utf-8 byte sequence from index {validUpTo}"
      else s!"invalid utf-8 sequence of {invalidLen bs} bytes from index {validUpTo}"

/-- Fail when a length prefix promises more bytes than the file still holds. -/
def boundedByFile (needed : ℕ) : Reader MemoryError Unit := fun data =>
  if data.length < needed then .error .eof else .ok ((), data)

/-- Read a string behind its length. -/
def readLenPrefixedStr : Reader MemoryError String := do
  let len ← readLe32 .eof
  boundedByFile len.toNat
  let buf ← take .eof len.toNat
  orFail (okOr (.schema s!"invalid UTF-8 in WAL: {utf8Error buf.length 0 buf}") (fromUtf8 buf))

def readFloats : ℕ → Reader MemoryError (List UInt32)
  | 0 => pure []
  | count + 1 => do
    let v ← readLe32 .eof
    let vs ← readFloats count
    pure (v :: vs)

def readEmbedding : Reader MemoryError (List UInt32) := do
  let count ← readLe32 .eof
  boundedByFile (count.toNat * 4)
  readFloats count.toNat

/-- Read the fields of an entry behind its type byte. -/
def readEntry : WalEntryType → Reader MemoryError WalEntry
  | .save => do
    let timestamp ← readLe64 .eof
    let chunk ← readLenPrefixedStr
    let embedding ← readEmbedding
    let sourceChannel ← readLenPrefixedStr
    let sessionId ← readLenPrefixedStr
    let tags ← readLenPrefixedStr
    pure (.save ⟨chunk, embedding, sourceChannel, timestamp, sessionId, tags⟩)
  | .tombstone => do
    let timestamp ← readLe64 .eof
    let index ← readLe32 .eof
    pure (.tombstone timestamp index.toNat)
  | .activationUpdate => do
    let timestamp ← readLe64 .eof
    pure (.activationUpdate timestamp)

/-! ### Reading an entry back -/

namespace WalEntry

/-- The lengths of the entry's fields fit their prefixes, and its index fits its field. -/
def Fits : WalEntry → Prop
  | save e => (utf8Bytes e.chunk).length < 2 ^ 32 ∧ e.embedding.length < 2 ^ 32 ∧
      (utf8Bytes e.sourceChannel).length < 2 ^ 32 ∧ (utf8Bytes e.sessionId).length < 2 ^ 32 ∧
      (utf8Bytes e.tags).length < 2 ^ 32
  | tombstone _ index => index < 2 ^ 32
  | activationUpdate _ => True

instance : DecidablePred Fits := fun e => by
  cases e <;> unfold Fits <;> infer_instance

def entryType : WalEntry → WalEntryType
  | save _ => .save
  | tombstone _ _ => .tombstone
  | activationUpdate _ => .activationUpdate

/-- The bytes behind the type byte. -/
def fields (entry : WalEntry) : Bytes := entry.serialize.tail

theorem exists_serialize_eq (entry : WalEntry) :
    ∃ b, entry.serialize = b :: entry.fields ∧ WalEntryType.fromU8 b = some entry.entryType := by
  cases entry with
  | save e => exact ⟨0x01, rfl, rfl⟩
  | tombstone timestamp index => exact ⟨0x02, rfl, rfl⟩
  | activationUpdate timestamp => exact ⟨0x03, rfl, rfl⟩

end WalEntry

/-- A length check in front of a reader that needs as many bytes changes nothing. -/
theorem frames_boundedByFile {α : Type} {reader : Reader MemoryError α} {enc : Bytes} {a : α}
    {n : ℕ} (h : Frames .eof reader enc a) (hn : enc.length = n) :
    Frames .eof (boundedByFile n >>= fun _ => reader) enc a where
  complete rest := by
    have hlen : ¬ (enc ++ rest).length < n := by rw [length_append]; omega
    have hbound : boundedByFile n (enc ++ rest) = .ok ((), enc ++ rest) := if_neg hlen
    exact bind_of_ok hbound (h.complete rest)
  cut {p} hp hne := by
    have hlen : p.length ≠ enc.length := fun heq => hne (hp.eq_of_length heq)
    have hlt : p.length < n := by have := hp.length_le; omega
    exact bind_of_error (if_pos hlt)

theorem frames_readLenPrefixedStr {s : String} (h : (utf8Bytes s).length < 2 ^ 32) :
    Frames .eof readLenPrefixedStr (serializeStr s) s := by
  have hlen : (ofNat (utf8Bytes s).length).toNat = (utf8Bytes s).length := toNat_ofNat_of_lt' h
  apply (frames_readLe32 _ _).bind
  rw [hlen]
  apply frames_boundedByFile _ rfl
  rw [← append_nil (utf8Bytes s)]
  apply Frames.bind (frames_take (by rw [append_nil]))
  rw [fromUtf8_eq_some.mpr rfl]
  exact frames_pure _ s

theorem frames_readFloats (xs : List UInt32) :
    Frames .eof (readFloats xs.length) (xs.flatMap le32) xs := by
  induction xs with
  | nil => exact frames_pure _ []
  | cons x xs ih => exact (frames_readLe32 _ x).bind (ih.map (x :: ·))

theorem frames_readEmbedding {xs : List UInt32} (h : xs.length < 2 ^ 32) :
    Frames .eof readEmbedding (le32 (ofNat xs.length) ++ xs.flatMap le32) xs := by
  have hlen : (ofNat xs.length).toNat = xs.length := toNat_ofNat_of_lt' h
  apply (frames_readLe32 _ _).bind
  rw [hlen]
  apply frames_boundedByFile (frames_readFloats xs)
  simp

/-- The fields of an entry that fits are read back, and a part of them is seen to be one. -/
theorem frames_readEntry (h : entry.Fits) :
    Frames .eof (readEntry entry.entryType) entry.fields entry := by
  cases entry with
  | save e =>
    obtain ⟨hchunk, hembedding, hchannel, hsession, htags⟩ := h
    exact (frames_readLe64 _ _).bind ((frames_readLenPrefixedStr hchunk).bind
      ((frames_readEmbedding hembedding).bind ((frames_readLenPrefixedStr hchannel).bind
        ((frames_readLenPrefixedStr hsession).bind
          ((frames_readLenPrefixedStr htags).map fun tags => WalEntry.save
            ⟨e.chunk, e.embedding, e.sourceChannel, e.timestamp, e.sessionId, tags⟩)))))
  | tombstone timestamp index =>
    have hindex : (ofNat index).toNat = index := toNat_ofNat_of_lt' h
    have hframes : Frames .eof (readEntry .tombstone) (WalEntry.tombstone timestamp index).fields
        (.tombstone timestamp (ofNat index).toNat) :=
      (frames_readLe64 _ timestamp).bind
        ((frames_readLe32 _ _).map fun i => WalEntry.tombstone timestamp i.toNat)
    rwa [hindex] at hframes
  | activationUpdate timestamp => exact (frames_readLe64 _ timestamp).map WalEntry.activationUpdate

section

variable (sha256 : Bytes → Fixed 32)
variable {fileLen : ℕ} {tip : Fixed 32} {entry : WalEntry} {strict : Bool} {path : String}

/-! ### The log -/

/-- The value a chain starts from. -/
def initialChain : Fixed 32 := sha256 (walMagic ++ [WalVersion.v2.toByte])

/-- The value of the chain behind an entry. -/
def chainNext (prev : Fixed 32) (entryBytes : Bytes) : Fixed 32 := sha256 (prev.1 ++ entryBytes)

def hexByte (b : UInt8) : String :=
  "0x" ++ String.ofList [Nat.digitChar (b.toNat / 16), Nat.digitChar (b.toNat % 16)]

def unknownTypeMessage (entryStart : ℕ) (typeByte : UInt8) : String :=
  s!"WAL entry at offset {entryStart} has unknown type byte {hexByte typeByte} " ++
    "(not truncated -- the byte is present but unrecognized)"

/-- The message for a field that does not decode. -/
def corruptMessage (entryStart : ℕ) (message : String) : String :=
  s!"WAL entry at offset {entryStart} is corrupt (not truncated -- the bytes were " ++
    s!"fully present but failed to decode): schema error: {message}"

def chainMessage (entryStart : ℕ) : String :=
  s!"WAL entry at offset {entryStart} failed chain-hash verification -- " ++
    "the .h5.wal sidecar was tampered with or corrupted"

/-- Take one entry from the front of what is left of a file of `fileLen` bytes, with the chain at
`tip`. There is none where the bytes run out. -/
def nextEntry (version : WalVersion) (fileLen : ℕ) (tip : Fixed 32) (data : Bytes) :
    Except MemoryError (Option (WalEntry × Fixed 32 × Bytes)) :=
  let entryStart := fileLen - data.length
  match data with
  | [] => .ok none
  | typeByte :: fields =>
    match WalEntryType.fromU8 typeByte with
    | none =>
      match version with
      | .v2 => .error (.integrity (unknownTypeMessage entryStart typeByte))
      | .v1 => .ok none
    | some entryType =>
      match readEntry entryType fields with
      | .error (.schema message) =>
        match version with
        | .v2 => .error (.integrity (corruptMessage entryStart message))
        | .v1 => .ok none
      -- fields fail otherwise only where the bytes run out
      | .error _ => .ok none
      | .ok (entry, rest) =>
        match version with
        | .v2 =>
          -- a missing trailer is a torn write, like missing fields
          if rest.length < 32 then .ok none
          else
            let raw := data.take (data.length - rest.length)
            let expected := chainNext sha256 tip raw
            if expected.1 ≠ rest.take 32 then .error (.integrity (chainMessage entryStart))
            else .ok (some (entry, expected, rest.drop 32))
        | .v1 => .ok (some (entry, tip, rest))

/-- The entries behind the header of a file of `fileLen` bytes, and the chain's last value. -/
def parseEntries (version : WalVersion) (fileLen : ℕ) (data : Bytes) :
    Except MemoryError (List WalEntry × Fixed 32) :=
  RecordLog.collect (nextEntry sha256 version fileLen) data.length (initialChain sha256) data

/-- An open log. Its position is the end of the file. -/
structure WalFile where
  entryCount : UInt32
  /-- Entries written since the header's count was brought up to date. -/
  pendingHeaderSync : ℕ
  version : WalVersion
  chainTip : Fixed 32
  deriving DecidableEq

def walHeader (version : WalVersion) (count : UInt32) : Bytes :=
  walMagic ++ (version.toByte :: le32 count)

/-- The message for a log without chained hashes where one is required. -/
def strictV1Message (path : String) : String :=
  s!"strict mode: WAL sidecar {path} is version 1 (no chain hash); refusing to replay an " ++
    "unauthenticated sidecar -- flush and rotate it with a non-strict open first"

namespace WalFile

def fresh : WalFile := ⟨0, 0, .v2, initialChain sha256⟩

/-- Start the log anew. -/
def truncate : WalFile × Bytes := (fresh sha256, walHeader .v2 0)

/-- The version a header names. -/
def checkVersion (strict : Bool) (path : String) (b : UInt8) : Except MemoryError WalVersion :=
  match WalVersion.ofByte b with
  | none => .error (.schema s!"unsupported WAL version {b}")
  | some version =>
    if strict && version == .v1 then .error (.integrity (strictV1Message path)) else .ok version

/-- Read the header field by field. -/
def readHeader (strict : Bool) (path : String) : Reader MemoryError (WalVersion × UInt32) := do
  let magic ← take .eof 4
  orFail (reject (magic ≠ walMagic) (.schema "invalid WAL magic bytes"))
  let ver ← take .eof 1
  let version ← orFail (checkVersion strict path (ver.headD 0))
  let count ← readLe32 .eof
  pure (version, count)

/-- Open the log at `path`, or create it. Returns the handle and the file. -/
def openWith (strict : Bool) (path : String) (file : Option Bytes) :
    Except MemoryError (WalFile × Bytes) :=
  match file with
  | none => .ok (truncate sha256)
  | some bytes => do
    let ((version, entryCount), data) ← readHeader strict path bytes
    let chainTip ← match version with
      | .v2 => Prod.snd <$> parseEntries sha256 version bytes.length data
      | .v1 => pure (initialChain sha256)
    pure (⟨entryCount, 0, version, chainTip⟩, bytes)

def readEntriesWith (strict : Bool) (path : String) (file : Option Bytes) :
    Except MemoryError (List WalEntry) :=
  match file with
  | none => .ok []
  | some bytes => do
    let (header, data) ← take .eof 9 bytes
    reject (header.take 4 ≠ walMagic) (.schema "invalid WAL magic bytes")
    let version ← checkVersion strict path (header.getD 4 0)
    let (entries, _) ← parseEntries sha256 version bytes.length data
    pure entries

def pendingCount (w : WalFile) : ℕ := w.entryCount.toNat

/-- Write an entry's bytes, followed by its hash in the current format. -/
def writeEntryBytes (w : WalFile) (file buf : Bytes) : WalFile × Bytes :=
  match w.version with
  | .v2 =>
    let tip := chainNext sha256 w.chainTip buf
    ({ w with chainTip := tip }, file ++ (buf ++ tip.1))
  | .v1 => (w, file ++ buf)

/-- Bring the header's count up to date. -/
def writeEntryCount (w : WalFile) (file : Bytes) : WalFile × Bytes :=
  ({ w with pendingHeaderSync := 0 }, overwrite file 5 (le32 w.entryCount))

def append (w : WalFile) (file : Bytes) (entry : WalEntry) : WalFile × Bytes :=
  let (w, file) := writeEntryBytes sha256 w file entry.serialize
  let w := { w with
    entryCount := w.entryCount + 1
    pendingHeaderSync := w.pendingHeaderSync + 1 }
  if groupCommitSize ≤ w.pendingHeaderSync then writeEntryCount w file else (w, file)

def appendSave (w : WalFile) (file : Bytes) (entry : MemoryEntry) : WalFile × Bytes :=
  append sha256 w file (.save entry)

def appendTombstone (w : WalFile) (file : Bytes) (index : ℕ) (timestamp : UInt64) :
    WalFile × Bytes :=
  append sha256 w file (.tombstone timestamp index)

end WalFile

/-! ### Logs that were written entry by entry -/

def encodeEntry (version : WalVersion) (tip : Fixed 32) (entry : WalEntry) : Bytes :=
  match version with
  | .v2 => entry.serialize ++ (chainNext sha256 tip entry.serialize).1
  | .v1 => entry.serialize

/-- The chain behind an entry. -/
def advanceTip (version : WalVersion) (tip : Fixed 32) (entry : WalEntry) : Fixed 32 :=
  match version with
  | .v2 => chainNext sha256 tip entry.serialize
  | .v1 => tip

variable {sha256} {version : WalVersion}

/-- Inside an entry the reader stops. -/
theorem nextEntry_cut (hfits : entry.Fits) {p : Bytes} (hp : p <+: entry.serialize)
    (hne : p ≠ entry.serialize) :
    nextEntry sha256 version fileLen tip p = .ok none := by
  obtain ⟨b, hserialize, htype⟩ := entry.exists_serialize_eq
  cases p with
  | nil => rfl
  | cons c q =>
    rw [hserialize] at hp hne
    obtain ⟨rfl, hq⟩ := cons_prefix_cons.mp hp
    have hread := (frames_readEntry hfits).cut hq fun heq => hne (by rw [heq])
    simp only [nextEntry, htype, hread, MemoryError.eof]

theorem nextEntry_v1 (hfits : entry.Fits) (rest : Bytes) :
    nextEntry sha256 .v1 fileLen tip (entry.serialize ++ rest) = .ok (some (entry, tip, rest)) := by
  obtain ⟨b, hserialize, htype⟩ := entry.exists_serialize_eq
  have hread := (frames_readEntry hfits).complete rest
  rw [hserialize, cons_append]
  simp only [nextEntry, htype, hread]

theorem nextEntry_v2 (hfits : entry.Fits) {rest : Bytes} :
    nextEntry sha256 .v2 fileLen tip (entry.serialize ++ rest) =
      if rest.length < 32 then .ok none
      else if (chainNext sha256 tip entry.serialize).1 ≠ rest.take 32 then
        .error (.integrity (chainMessage (fileLen - (entry.serialize ++ rest).length)))
      else .ok (some (entry, chainNext sha256 tip entry.serialize, rest.drop 32)) := by
  obtain ⟨b, hserialize, htype⟩ := entry.exists_serialize_eq
  have hread := (frames_readEntry hfits).complete rest
  have hraw : (b :: (entry.fields ++ rest)).take
      ((b :: (entry.fields ++ rest)).length - rest.length) = b :: entry.fields := by
    rw [← cons_append, length_append, Nat.add_sub_cancel, take_left]
  rw [hserialize, cons_append]
  simp only [nextEntry, htype, hread, hraw]

/-- The reader takes whole entries and stops inside of one. -/
theorem framed_nextEntry (fileLen : ℕ) :
    RecordLog.Framed (nextEntry sha256 version fileLen) (encodeEntry sha256 version)
      (advanceTip sha256 version) WalEntry.Fits where
  nonempty tip entry := by
    obtain ⟨b, hserialize, _⟩ := entry.exists_serialize_eq
    cases version <;> simp [encodeEntry, hserialize]
  take tip entry rest hfits := by
    cases version with
    | v1 => exact nextEntry_v1 hfits rest
    | v2 =>
      have hlen := (chainNext sha256 tip entry.serialize).2
      rw [encodeEntry, append_assoc, nextEntry_v2 hfits, if_neg, if_neg]
      · rw [drop_left' hlen]; rfl
      · rw [take_left' hlen]; exact fun h => h rfl
      · rw [length_append]; omega
  stop tip entry p hfits hp hne := by
    cases version with
    | v1 => exact nextEntry_cut hfits hp hne
    | v2 =>
      -- the bytes stop in the entry or in the hash behind it
      by_cases hwhole : entry.serialize <+: p
      · obtain ⟨t, rfl⟩ := hwhole
        have ht := (prefix_append_right_inj _).mp hp
        have htne : t.length ≠ 32 := fun heq =>
          hne (by rw [encodeEntry, ht.eq_of_length (heq.trans (chainNext _ _ _).2.symm)])
        have hlen := (chainNext sha256 tip entry.serialize).2 ▸ ht.length_le
        rw [nextEntry_v2 hfits, if_pos (by omega)]
      · have hpre := (List.prefix_or_prefix_of_prefix hp
          (prefix_append entry.serialize _)).resolve_right hwhole
        exact nextEntry_cut hfits hpre fun heq => hwhole (heq ▸ prefix_rfl)
  stop_nil tip := rfl

variable (sha256) in
/-- The entries of a log, written one after the other. -/
def encodeEntries (version : WalVersion) (entries : List WalEntry) : Bytes :=
  RecordLog.encodeAll (encodeEntry sha256 version) (advanceTip sha256 version)
    (initialChain sha256) entries

variable (sha256) in
/-- The chain behind the entries of a log. -/
def chainTipOf (version : WalVersion) (entries : List WalEntry) : Fixed 32 :=
  RecordLog.advanceAll (advanceTip sha256 version) (initialChain sha256) entries

variable (sha256) in
/-- How many of the entries lie wholly in the first `n` bytes behind the header. -/
def wholeEntries (version : WalVersion) (n : ℕ) (entries : List WalEntry) : ℕ :=
  RecordLog.wholeCount (encodeEntry sha256 version) (advanceTip sha256 version)
    (initialChain sha256) n entries

theorem chainTipOf_v1 (entries : List WalEntry) :
    chainTipOf sha256 .v1 entries = initialChain sha256 := by
  induction entries with
  | nil => rfl
  | cons e es ih => exact ih

def WalVersion.Accepted (strict : Bool) (version : WalVersion) : Prop :=
  strict = true → version = .v2

theorem parseEntries_take {entries : List WalEntry} (hfits : ∀ e ∈ entries, e.Fits)
    (fileLen n : ℕ) :
    parseEntries sha256 version fileLen ((encodeEntries sha256 version entries).take n) =
      .ok (entries.take (wholeEntries sha256 version n entries),
        chainTipOf sha256 version (entries.take (wholeEntries sha256 version n entries))) :=
  (framed_nextEntry fileLen).collect_take hfits n (le_refl _)

theorem parseEntries_encodeEntries {entries : List WalEntry} (hfits : ∀ e ∈ entries, e.Fits)
    (fileLen : ℕ) :
    parseEntries sha256 version fileLen (encodeEntries sha256 version entries) =
      .ok (entries, chainTipOf sha256 version entries) := by
  have h := @parseEntries_take sha256 version entries hfits fileLen
    (encodeEntries sha256 version entries).length
  have hall : wholeEntries sha256 version (encodeEntries sha256 version entries).length entries =
      entries.length := RecordLog.wholeCount_of_length_le _ _ _ (le_refl _)
  rwa [hall, take_length, take_length] at h

namespace WalFile

variable {strict : Bool} {path : String}

theorem length_walHeader (count : UInt32) : (walHeader version count).length = 9 := by
  simp [walHeader, walMagic]

section

variable (h : version.Accepted strict)
include h

theorem checkVersion_toByte : checkVersion strict path version.toByte = .ok version := by
  unfold checkVersion
  cases version with
  | v2 => simp
  | v1 =>
    cases strict with
    | false => rfl
    | true => exact absurd (h rfl) (by decide)

theorem readHeader_walHeader (count : UInt32) (data : Bytes) :
    readHeader strict path (walHeader version count ++ data) = .ok ((version, count), data) := by
  have hframes := ((frames_readLe32 MemoryError.eof count).map fun c => (version, c)).complete data
  refine bind_of_ok (take_eq_ok.mpr ⟨rfl, append_assoc ..⟩) ?_
  refine bind_of_ok (orFail_eq_ok.mpr ⟨reject_of_not (fun hne => hne rfl), rfl⟩) ?_
  refine bind_of_ok (take_eq_ok.mpr ⟨length_singleton, rfl⟩) ?_
  exact bind_of_ok (orFail_eq_ok.mpr ⟨checkVersion_toByte h, rfl⟩) hframes

theorem readEntriesWith_walHeader (count : UInt32) (data : Bytes) :
    readEntriesWith sha256 strict path (some (walHeader version count ++ data)) =
      Prod.fst <$> parseEntries sha256 version (walHeader version count ++ data).length data := by
  have htake : take MemoryError.eof 9 (walHeader version count ++ data) =
      .ok (walHeader version count, data) := take_eq_ok.mpr ⟨length_walHeader count, rfl⟩
  have hversion : checkVersion strict path ((walHeader version count).getD 4 0) = .ok version :=
    checkVersion_toByte h
  rw [readEntriesWith, htake]
  simp only [ok_bind, hversion]
  cases parseEntries sha256 version (walHeader version count ++ data).length data <;> rfl

theorem openWith_walHeader {count : UInt32} {data : Bytes} {entries : List WalEntry}
    (hparse : parseEntries sha256 version (walHeader version count ++ data).length data = .ok
      (entries, chainTipOf sha256 version entries)) :
    openWith sha256 strict path (some (walHeader version count ++ data)) =
      .ok (⟨count, 0, version, chainTipOf sha256 version entries⟩,
        walHeader version count ++ data) := by
  rw [openWith, readHeader_walHeader h]
  cases version with
  | v2 => simp only [ok_bind, hparse]; rfl
  | v1 =>
    rw [chainTipOf_v1]
    rfl

end

variable (sha256) in
/-- The file behind an open log is a header and the given entries, the header's count lacks the
appends since its last update, and the chain has the entries' value. -/
structure Holds (w : WalFile) (file : Bytes) (entries : List WalEntry) : Prop where
  file_eq : file = walHeader w.version (w.entryCount - UInt32.ofNat w.pendingHeaderSync) ++
    encodeEntries sha256 w.version entries
  chainTip_eq : w.chainTip = chainTipOf sha256 w.version entries

variable {w : WalFile} {file : Bytes} {entries : List WalEntry}

theorem holds_truncate : Holds sha256 (truncate sha256).1 (truncate sha256).2 [] where
  file_eq := by
    show walHeader .v2 0 = walHeader .v2 (0 - ofNat 0) ++ []
    rfl
  chainTip_eq := rfl

theorem overwrite_walHeader (old new : UInt32) (data : Bytes) :
    overwrite (walHeader version old ++ data) 5 (le32 new) = walHeader version new ++ data := by
  have hsplit (c : UInt32) : walHeader version c ++ data =
      (walMagic ++ [version.toByte]) ++ (le32 c ++ data) := by simp [walHeader]
  have hlen : (walMagic ++ [version.toByte]).length = 5 := rfl
  rw [overwrite, hsplit, take_left' hlen, length_le32, ← drop_drop,
    drop_left' hlen, drop_left' (length_le32 old), hsplit, append_assoc]

theorem writeEntryBytes_eq (w : WalFile) (file : Bytes) (entry : WalEntry) :
    writeEntryBytes sha256 w file entry.serialize =
      ({ w with chainTip := advanceTip sha256 w.version w.chainTip entry },
        file ++ encodeEntry sha256 w.version w.chainTip entry) := by
  rcases w with ⟨_, _, version, _⟩
  cases version <;> rfl

@[simp] theorem version_append (w : WalFile) (file : Bytes) (entry : WalEntry) :
    (append sha256 w file entry).1.version = w.version := by
  unfold append
  rw [writeEntryBytes_eq]
  dsimp only
  split <;> rfl

@[simp] theorem entryCount_append (w : WalFile) (file : Bytes) (entry : WalEntry) :
    (append sha256 w file entry).1.entryCount = w.entryCount + 1 := by
  unfold append
  rw [writeEntryBytes_eq]
  dsimp only
  split <;> rfl

theorem Holds.append (h : Holds sha256 w file entries) (entry : WalEntry) :
    Holds sha256 (append sha256 w file entry).1 (append sha256 w file entry).2
      (entries ++ [entry]) := by
  have hfile : file ++ encodeEntry sha256 w.version w.chainTip entry =
      walHeader w.version (w.entryCount - ofNat w.pendingHeaderSync) ++
        encodeEntries sha256 w.version (entries ++ [entry]) := by
    rw [h.file_eq, h.chainTip_eq, encodeEntries, encodeEntries, RecordLog.encodeAll_append,
      RecordLog.encodeAll, RecordLog.encodeAll, append_nil]
    rfl
  have htip : advanceTip sha256 w.version w.chainTip entry =
      chainTipOf sha256 w.version (entries ++ [entry]) := by
    rw [h.chainTip_eq, chainTipOf, chainTipOf, RecordLog.advanceAll_append]
    rfl
  have hcount : w.entryCount + 1 - ofNat (w.pendingHeaderSync + 1) =
      w.entryCount - ofNat w.pendingHeaderSync := by
    rw [ofNat_add]
    grind
  unfold WalFile.append
  rw [writeEntryBytes_eq]
  dsimp only
  split
  · refine ⟨?_, htip⟩
    simp only [writeEntryCount]
    rw [hfile, overwrite_walHeader]
    simp
  · exact ⟨by rw [hfile, hcount], htip⟩

theorem Holds.readEntriesWith (h : Holds sha256 w file entries) (hfits : ∀ e ∈ entries, e.Fits)
    (hversion : w.version.Accepted strict) (path : String) :
    readEntriesWith sha256 strict path (some file) = .ok entries := by
  rw [h.file_eq, readEntriesWith_walHeader hversion, parseEntries_encodeEntries hfits]
  rfl

/-- Opening a log continues it. -/
theorem Holds.openWith (h : Holds sha256 w file entries) (hfits : ∀ e ∈ entries, e.Fits)
    (hversion : w.version.Accepted strict) (path : String) :
    ∃ w', openWith sha256 strict path (some file) = .ok (w', file) ∧
      Holds sha256 w' file entries ∧ w'.version = w.version := by
  have hopen := @openWith_walHeader sha256 w.version strict path hversion
    (w.entryCount - ofNat w.pendingHeaderSync) _ _ (parseEntries_encodeEntries hfits _)
  rw [← h.file_eq] at hopen
  refine ⟨_, hopen, ⟨?_, rfl⟩, rfl⟩
  rw [h.file_eq]
  simp

end WalFile

end

def replayIntoCache (env : Env) (entries : List WalEntry) (cache : MemoryCache) : MemoryCache :=
  entries.foldl (fun cache entry =>
    match entry with
    | .save e => (cache.push env e).1
    | .tombstone _ index => (cache.markDeleted index).1
    | .activationUpdate _ => cache) cache

end ClawHdf5.Agent
