import ClawHdf5.Agent.Wal
import ClawHdf5.Math.Blake3
import ClawHdf5.Math.PrefixCode
import ClawHdf5.Merkle.Attr
import ClawHdf5.Merkle.Soundness

/-!
# The content root of a store

A snapshot file carries the root of a Merkle tree over its records. There is one leaf for each
memory entry, session, entity, relation and alias, with a tag for its kind and its fields one behind
the other. The root is written as the packed attribute of the tree in hexadecimal, and checked
against the content that is loaded.
-/

namespace ClawHdf5.Agent

open Bytes Fallible PrefixCode Merkle List MerkleTree Option

/-- The content of a store: memory entries, sessions and the knowledge graph. -/
structure Content where
  memory : MemoryCache
  sessions : SessionCache
  knowledge : KnowledgeCache
  deriving DecidableEq

/-! ### Leaves -/

/-- A field behind its length. -/
def pushLenPrefixed (bytes : Bytes) : Bytes := counted (fun b => [b]) bytes

def pushStr (s : String) : Bytes := pushLenPrefixed (utf8Bytes s)

/-- The tags of the leaves, `M`, `S`, `E`, `R` and `A`. -/
def tagMemory : UInt8 := 0x4d
@[inherit_doc tagMemory] def tagSession : UInt8 := 0x53
@[inherit_doc tagMemory] def tagEntity : UInt8 := 0x45
@[inherit_doc tagMemory] def tagRelation : UInt8 := 0x52
@[inherit_doc tagMemory] def tagAlias : UInt8 := 0x41

def memoryLeaf (e : CacheEntry) : Bytes :=
  tagMemory :: (pushStr e.chunk ++ (counted le32 e.embedding ++ (pushStr e.sourceChannel ++
    (le64 e.timestamp ++ (pushStr e.sessionId ++ (pushStr e.tags ++ ([e.tombstone] ++
      (le32 e.norm ++ le32 e.activationWeight))))))))

def sessionLeaf (e : SessionEntry) : Bytes :=
  tagSession :: (pushStr e.id ++ (le64 e.startIdx ++ (le64 e.endIdx ++ (pushStr e.channel ++
    (le64 e.ts ++ pushStr e.summary)))))

def entityLeaf (e : Entity) : Bytes :=
  tagEntity :: (le64 e.id ++ (pushStr e.name ++ (pushStr e.entityType ++
    le64 e.embeddingIdx.toUInt64)))

def relationLeaf (r : Relation) : Bytes :=
  tagRelation :: (le64 r.src ++ (le64 r.tgt ++ (pushStr r.relation ++ (le32 r.weight ++
    le64 r.ts))))

def aliasLeaf (a : String × Int64) : Bytes :=
  tagAlias :: (pushStr a.1 ++ le64 a.2.toUInt64)

def Content.leaves (c : Content) : List Bytes :=
  c.memory.entries.map memoryLeaf ++ c.sessions.map sessionLeaf ++
    c.knowledge.entities.map entityLeaf ++ c.knowledge.relations.map relationLeaf ++
    c.knowledge.aliases.map aliasLeaf

/-- All leaves, if there are any. -/
def allLeaves (c : Content) : Option (List Bytes) :=
  if c.leaves.isEmpty then none else some c.leaves

/-! ### Hexadecimal -/

/-- Two digits for each byte. -/
def hexEncode (bytes : Bytes) : String :=
  String.ofList (bytes.flatMap fun b : UInt8 =>
    [Nat.digitChar (b >>> 4).toNat, Nat.digitChar (b &&& 0x0f).toNat])

def toDigit (c : UInt8) : Option UInt8 :=
  if 0x30 ≤ c ∧ c ≤ 0x39 then some (c - 0x30)
  else if 0x61 ≤ c ∧ c ≤ 0x66 then some (c - 0x57)
  else if 0x41 ≤ c ∧ c ≤ 0x46 then some (c - 0x37)
  else none

def decodePairs : Bytes → Option Bytes
  | hi :: lo :: rest => do
    let hi ← toDigit hi
    let lo ← toDigit lo
    let out ← decodePairs rest
    some ((hi <<< 4 ||| lo) :: out)
  | _ => some []

def hexDecode (s : String) : Option Bytes :=
  let s := utf8Bytes s
  if s.length % 2 ≠ 0 then none else decodePairs s

/-! ### The root -/

section

variable (H : Hashers)

/-- The attribute, the tree and the leaves of a content, if it is not empty. -/
def buildAttr (c : Content) : Option (MerkleAttr × MerkleTree × List Bytes) := do
  let leaves ← allLeaves c
  let tree := MerkleTree.fromChunks H leaves .blake3
  let attr := MerkleAttr.fromTreeWithCompanion H tree (computeSha256 H (flatNodes tree.nodes))
  some (attr, tree, leaves)

/-- The root of a content in hexadecimal, if it is not empty. -/
def contentRootHex (c : Content) : Option String := do
  let (attr, _, _) ← buildAttr H c
  some (hexEncode attr.pack)

def missingRootMessage : String :=
  "strict mode: file has no _merkle_root attribute (unprotected or stripped)"

def tamperedMessage (chunkIdx : ℕ) : String :=
  s!"content tampering detected: persisted record {chunkIdx} does not match its stored Merkle leaf"

/-- The outcome of a verification as the store reports it. -/
def verifyOutcome (debug : MerkleError → String) : Except MerkleError Bool → Except MemoryError Unit
  | .ok true => .ok ()
  | .ok false => .error (.integrity "content Merkle verification returned false")
  | .error (.hashMismatch chunkIdx) => .error (.integrity (tamperedMessage chunkIdx))
  | .error e => .error (.integrity s!"content Merkle verification failed: {debug e}")

theorem verifyOutcome_eq_ok {debug : MerkleError → String} {r : Except MerkleError Bool} :
    verifyOutcome debug r = .ok () ↔ r = .ok true := by
  unfold verifyOutcome
  split <;> simp_all

/-- Check a content against a stored root. The debug texts of errors are a parameter. -/
def verifyContent (debug : MerkleError → String) (c : Content) (storedHex : Option String)
    (strict : Bool) : Except MemoryError Unit :=
  match storedHex with
  | none => if strict then .error (.integrity missingRootMessage) else .ok ()
  | some storedHex => do
    let packed ← okOr (.integrity "_merkle_root is not valid hex") (hexDecode storedHex)
    let attr ← (MerkleAttr.unpack H packed).mapError
      fun e => .integrity s!"_merkle_root is corrupt: {debug e}"
    let (_, tree, leaves) ←
      okOr (.integrity "content is empty but a _merkle_root attribute is present") (buildAttr H c)
    verifyOutcome debug (verifyDataset H ⟨attr, flatNodes tree.nodes, leaves, []⟩)

end

/-! ### The leaves determine the content -/

/-- A string is shorter than `2 ^ 64` bytes, as every allocation is. -/
def StrFits (s : String) : Prop := (utf8Bytes s).length < 2 ^ 64
  deriving Decidable

/-- The strings and the vector of a memory entry are shorter than `2 ^ 64`. -/
@[mk_iff]
structure CacheEntry.Addressable (e : CacheEntry) : Prop where
  chunk : StrFits e.chunk
  embedding : e.embedding.length < 2 ^ 64
  sourceChannel : StrFits e.sourceChannel
  sessionId : StrFits e.sessionId
  tags : StrFits e.tags

instance decidableEntryAddressable (e : CacheEntry) : Decidable e.Addressable :=
  decidable_of_iff' _ (CacheEntry.addressable_iff e)

/-- All strings and vectors of a content are shorter than `2 ^ 64`. -/
structure Content.Addressable (c : Content) : Prop where
  memory : ∀ e ∈ c.memory.entries, e.Addressable
  sessions : ∀ e ∈ c.sessions, StrFits e.id ∧ StrFits e.channel ∧ StrFits e.summary
  entities : ∀ e ∈ c.knowledge.entities, StrFits e.name ∧ StrFits e.entityType
  relations : ∀ r ∈ c.knowledge.relations, StrFits r.relation
  aliases : ∀ a ∈ c.knowledge.aliases, StrFits a.1

theorem utf8Bytes_injective : Function.Injective utf8Bytes := by
  intro s t h
  have hs := fromUtf8_eq_some.mpr (rfl : utf8Bytes s = utf8Bytes s)
  rw [h, fromUtf8_eq_some.mpr rfl] at hs
  exact (some.inj hs).symm

theorem selfDelimiting_pushStr : SelfDelimiting StrFits pushStr :=
  (selfDelimiting_counted one_pos (fun _ => rfl) singleton_injective).comp utf8Bytes_injective

theorem selfDelimiting_le64 : SelfDelimiting (fun _ => True) le64 :=
  selfDelimiting_of_length length_le64 le64_injective

theorem selfDelimiting_le32 : SelfDelimiting (fun _ => True) le32 :=
  selfDelimiting_of_length length_le32 le32_injective

theorem memoryLeaf_inj (a b : CacheEntry) (ha : a.Addressable) (hb : b.Addressable)
    (h : memoryLeaf a = memoryLeaf b) : a = b := by
  obtain ⟨_, h⟩ := cons.inj h
  obtain ⟨hchunk, h⟩ := selfDelimiting_pushStr ha.chunk hb.chunk h
  obtain ⟨hembedding, h⟩ := selfDelimiting_counted (by decide) length_le32 le32_injective
    ha.embedding hb.embedding h
  obtain ⟨hchannel, h⟩ := selfDelimiting_pushStr ha.sourceChannel hb.sourceChannel h
  obtain ⟨htimestamp, h⟩ := selfDelimiting_le64 trivial trivial h
  obtain ⟨hsession, h⟩ := selfDelimiting_pushStr ha.sessionId hb.sessionId h
  obtain ⟨htags, h⟩ := selfDelimiting_pushStr ha.tags hb.tags h
  obtain ⟨htombstone, h⟩ := cons.inj h
  obtain ⟨hnorm, h⟩ := selfDelimiting_le32 trivial trivial h
  have hweight := le32_injective h
  rcases a with ⟨⟨_, _, _, _, _, _⟩, _, _, _⟩
  simp_all

theorem sessionLeaf_inj (a b : SessionEntry)
    (ha : StrFits a.id ∧ StrFits a.channel ∧ StrFits a.summary)
    (hb : StrFits b.id ∧ StrFits b.channel ∧ StrFits b.summary)
    (h : sessionLeaf a = sessionLeaf b) : a = b := by
  obtain ⟨_, h⟩ := cons.inj h
  obtain ⟨hid, h⟩ := selfDelimiting_pushStr ha.1 hb.1 h
  obtain ⟨hstart, h⟩ := selfDelimiting_le64 trivial trivial h
  obtain ⟨hend, h⟩ := selfDelimiting_le64 trivial trivial h
  obtain ⟨hchannel, h⟩ := selfDelimiting_pushStr ha.2.1 hb.2.1 h
  obtain ⟨hts, h⟩ := selfDelimiting_le64 trivial trivial h
  have hsummary := selfDelimiting_pushStr.eq ha.2.2 hb.2.2 h
  rcases a with ⟨_, _, _, _, _, _⟩
  simp_all

theorem toUInt64_injective : Function.Injective Int64.toUInt64 := by
  intro a b h
  cases b
  cases h
  rfl

theorem entityLeaf_inj (a b : Entity) (ha : StrFits a.name ∧ StrFits a.entityType)
    (hb : StrFits b.name ∧ StrFits b.entityType) (h : entityLeaf a = entityLeaf b) : a = b := by
  obtain ⟨_, h⟩ := cons.inj h
  obtain ⟨hid, h⟩ := selfDelimiting_le64 trivial trivial h
  obtain ⟨hname, h⟩ := selfDelimiting_pushStr ha.1 hb.1 h
  obtain ⟨htype, h⟩ := selfDelimiting_pushStr ha.2 hb.2 h
  have hidx := toUInt64_injective (le64_injective h)
  rcases a with ⟨_, _, _, _⟩
  simp_all

theorem relationLeaf_inj (a b : Relation) (ha : StrFits a.relation) (hb : StrFits b.relation)
    (h : relationLeaf a = relationLeaf b) : a = b := by
  obtain ⟨_, h⟩ := cons.inj h
  obtain ⟨hsrc, h⟩ := selfDelimiting_le64 trivial trivial h
  obtain ⟨htgt, h⟩ := selfDelimiting_le64 trivial trivial h
  obtain ⟨hrelation, h⟩ := selfDelimiting_pushStr ha hb h
  obtain ⟨hweight, h⟩ := selfDelimiting_le32 trivial trivial h
  have hts := le64_injective h
  rcases a with ⟨_, _, _, _, _⟩
  simp_all

theorem aliasLeaf_inj (a b : String × Int64) (ha : StrFits a.1) (hb : StrFits b.1)
    (h : aliasLeaf a = aliasLeaf b) : a = b := by
  obtain ⟨_, h⟩ := cons.inj h
  obtain ⟨hname, h⟩ := selfDelimiting_pushStr ha hb h
  exact Prod.ext hname (toUInt64_injective (le64_injective h))

/-- Two contents agree in everything their leaves cover. -/
structure Content.Covers (a b : Content) : Prop where
  memory : a.memory.entries = b.memory.entries
  sessions : a.sessions = b.sessions
  entities : a.knowledge.entities = b.knowledge.entities
  relations : a.knowledge.relations = b.knowledge.relations
  aliases : a.knowledge.aliases = b.knowledge.aliases

/-- The leaves with a tag are those of its section. -/
theorem withTag_leaves (c : Content) :
    withTag tagMemory c.leaves = c.memory.entries.map memoryLeaf ∧
    withTag tagSession c.leaves = c.sessions.map sessionLeaf ∧
    withTag tagEntity c.leaves = c.knowledge.entities.map entityLeaf ∧
    withTag tagRelation c.leaves = c.knowledge.relations.map relationLeaf ∧
    withTag tagAlias c.leaves = c.knowledge.aliases.map aliasLeaf := by
  have hmemory := @withTag_map _ memoryLeaf tagMemory fun _ => rfl
  have hsession := @withTag_map _ sessionLeaf tagSession fun _ => rfl
  have hentity := @withTag_map _ entityLeaf tagEntity fun _ => rfl
  have hrelation := @withTag_map _ relationLeaf tagRelation fun _ => rfl
  have halias := @withTag_map _ aliasLeaf tagAlias fun _ => rfl
  simp only [Content.leaves, withTag_append, hmemory, hsession, hentity, hrelation, halias]
  refine ⟨?_, ?_, ?_, ?_, ?_⟩ <;> simp [tagMemory, tagSession, tagEntity, tagRelation, tagAlias]

/-- The leaves determine what they cover. -/
theorem leaves_inj {a b : Content} (ha : a.Addressable) (hb : b.Addressable)
    (h : a.leaves = b.leaves) : a.Covers b := by
  obtain ⟨hmemory, hsessions, hentities, hrelations, haliases⟩ := withTag_leaves a
  obtain ⟨hmemory', hsessions', hentities', hrelations', haliases'⟩ := withTag_leaves b
  rw [h] at hmemory hsessions hentities hrelations haliases
  exact ⟨map_inj_on memoryLeaf_inj ha.memory hb.memory (hmemory.symm.trans hmemory'),
    map_inj_on sessionLeaf_inj ha.sessions hb.sessions (hsessions.symm.trans hsessions'),
    map_inj_on entityLeaf_inj ha.entities hb.entities (hentities.symm.trans hentities'),
    map_inj_on relationLeaf_inj ha.relations hb.relations (hrelations.symm.trans hrelations'),
    map_inj_on aliasLeaf_inj ha.aliases hb.aliases (haliases.symm.trans haliases')⟩

/-! ### The root is read back -/

theorem toDigit_digitChar (b : UInt8) :
    toDigit (Nat.digitChar (b >>> 4).toNat).val.toUInt8 = some (b >>> 4) ∧
    toDigit (Nat.digitChar (b &&& 0x0f).toNat).val.toUInt8 = some (b &&& 0x0f) ∧
    (b >>> 4) <<< 4 ||| (b &&& 0x0f) = b := by
  rcases b with ⟨v⟩
  revert v
  decide +kernel

theorem utf8EncodeChar_digitChar {n : ℕ} (h : n < 16) :
    String.utf8EncodeChar (Nat.digitChar n) = [(Nat.digitChar n).val.toUInt8] := by
  decide +revert +kernel

theorem utf8Bytes_ofList (cs : List Char) :
    utf8Bytes (String.ofList cs) = cs.flatMap String.utf8EncodeChar := by
  simp [utf8Bytes, utf8Encode]

theorem utf8Bytes_hexEncode (bs : Bytes) : utf8Bytes (hexEncode bs) = bs.flatMap fun b : UInt8 =>
      [(Nat.digitChar (b >>> 4).toNat).val.toUInt8,
        (Nat.digitChar (b &&& 0x0f).toNat).val.toUInt8] := by
  have hhigh (b : UInt8) : (b >>> 4).toNat < 16 := by
    rcases b with ⟨v⟩
    revert v
    decide +kernel
  have hlow (b : UInt8) : (b &&& 0x0f).toNat < 16 := by
    rcases b with ⟨v⟩
    revert v
    decide +kernel
  rw [hexEncode, utf8Bytes_ofList, flatMap_assoc]
  congr 1
  funext b
  rw [flatMap_cons, flatMap_singleton, utf8EncodeChar_digitChar (hhigh b),
    utf8EncodeChar_digitChar (hlow b), singleton_append]

/-- The digits of a byte string are read back as the string. -/
theorem hexDecode_hexEncode (bs : Bytes) : hexDecode (hexEncode bs) = some bs := by
  have heven : (utf8Bytes (hexEncode bs)).length % 2 = 0 := by
    rw [utf8Bytes_hexEncode]
    simp
  have hpairs : decodePairs (utf8Bytes (hexEncode bs)) = some bs := by
    rw [utf8Bytes_hexEncode]
    clear heven
    induction bs with
    | nil => rfl
    | cons b bs ih =>
      obtain ⟨hhigh, hlow, hbyte⟩ := toDigit_digitChar b
      rw [flatMap_cons, cons_append, singleton_append, decodePairs, hhigh, hlow, ih]
      simp [hbyte]
  rw [hexDecode, if_neg (fun h => h heven), hpairs]

/-! ### A root is accepted for one content only -/

section

variable {H : Hashers} {a b c : Content} {hex : String}

variable (H) in
def Content.attr (c : Content) : MerkleAttr :=
  let tree := MerkleTree.fromChunks H c.leaves .blake3
  MerkleAttr.fromTreeWithCompanion H tree (computeSha256 H (flatNodes tree.nodes))

theorem buildAttr_eq (c : Content) : buildAttr H c =
    if c.leaves.isEmpty then none
    else some (c.attr H, fromChunks H c.leaves .blake3, c.leaves) := by
  unfold buildAttr allLeaves
  split <;> rfl

theorem unpack_attr (c : Content) : MerkleAttr.unpack H (c.attr H).pack = .ok (c.attr H) :=
  MerkleAttr.unpack_eq_ok.mpr ⟨rfl, rfl⟩

/-- The root of a content is accepted only for a content whose leaves have that root. -/
theorem root_eq_of_verifyContent {debug : MerkleError → String} {strict : Bool}
    (hok : verifyContent H debug b (some (hexEncode (a.attr H).pack)) strict = .ok ()) :
    (fromChunks H a.leaves .blake3).root = (fromChunks H b.leaves .blake3).root := by
  obtain ⟨packed, hpacked, hok⟩ := bind_ok_iff.mp hok
  obtain ⟨attr, hunpack, hok⟩ := bind_ok_iff.mp hok
  obtain ⟨r, hbuild, hok⟩ := bind_ok_iff.mp hok
  rw [okOr_eq_ok, hexDecode_hexEncode, some.injEq] at hpacked
  rw [← hpacked, unpack_attr] at hunpack
  obtain rfl := Except.ok.inj hunpack
  rw [okOr_eq_ok, buildAttr_eq, ite_none_left_eq_some] at hbuild
  obtain rfl := some.inj hbuild.2
  -- the view has the nodes of the tree over the leaves of `b` and the attribute of `a`
  let view : Dataset := ⟨a.attr H, flatNodes (fromChunks H b.leaves .blake3).nodes, b.leaves, []⟩
  have halg : view.merkleAttr.algorithm = .blake3 := fromLeafHashes_alg H _ _
  have htree : fromLeafHashes H (view.leaves H) view.merkleAttr.algorithm =
      fromChunks H b.leaves .blake3 := by
    rw [Dataset.leaves, halg]
    exact congrArg (fromLeafHashes H · .blake3) (map_leafPreimages_content H .blake3 b.leaves [])
  have hverified : verifyDataset H view = .ok true := verifyOutcome_eq_ok.mp hok
  have hroot := @root_eq_of_verifyDataset H view (by rw [htree]) hverified
  rw [htree] at hroot
  exact hroot

/-- The root of a content is accepted for a content with the same leaves. -/
theorem verifyContent_ok {debug : MerkleError → String} {strict : Bool}
    (hleaves : b.leaves = a.leaves) (hhex : contentRootHex H a = some hex) :
    verifyContent H debug b (some hex) strict = .ok () := by
  obtain ⟨r, hbuild, hhex⟩ := bind_eq_some_iff.mp hhex
  rw [buildAttr_eq, ite_none_left_eq_some] at hbuild
  obtain rfl := some.inj hbuild.2
  obtain rfl := some.inj hhex
  have hbuilt : buildAttr H b = some (a.attr H, fromChunks H a.leaves .blake3, a.leaves) := by
    rw [buildAttr_eq, Content.attr, hleaves, if_neg hbuild.1]
    rfl
  -- the view is what an honest writer leaves behind
  have hview : (⟨a.attr H, flatNodes (fromChunks H a.leaves .blake3).nodes, a.leaves,
      []⟩ : Dataset) = Dataset.committed H .blake3 .content a.leaves [] := by
    rw [Dataset.committed, commitTree_content]
    rfl
  have hrow := Dataset.committed_storesRow (H := H) .blake3 .content a.leaves []
  have hverified := hrow.verifyDataset_ok (by simpa [Dataset.committed] using hbuild.1)
    fun h => nomatch h
  rw [verifyContent, hexDecode_hexEncode]
  simp only [okOr, ok_bind, unpack_attr, hbuilt, hview, hverified, Except.mapError]
  rfl

/-- A root is accepted only for the content it was written for, as far as the leaves cover it. -/
theorem verifyContent_binds {debug : MerkleError → String} {strict : Bool}
    (ha : a.Addressable) (hb : b.Addressable)
    (hcf : CollisionFree H.blake3 (commitPreimages H .blake3 .content a.leaves [] ++
      commitPreimages H .blake3 .content b.leaves []))
    (hhex : contentRootHex H a = some hex)
    (hok : verifyContent H debug b (some hex) strict = .ok ()) : a.Covers b := by
  obtain ⟨r, hbuild, hhex⟩ := bind_eq_some_iff.mp hhex
  rw [buildAttr_eq, ite_none_left_eq_some] at hbuild
  obtain rfl := some.inj hbuild.2
  obtain rfl := some.inj hhex
  have hroot := root_eq_of_verifyContent hok
  rw [← commitTree_content H .blake3 a.leaves [],
    ← commitTree_content H .blake3 b.leaves []] at hroot
  have hleaves := leafPreimages_eq_of_root_eq hcf hroot
  exact leaves_inj ha hb (chunks_eq_of_leafPreimages_eq hleaves).1

end

/-! ### A content of two records -/

def realHashers : Hashers where
  sha256 m := ⟨Sha256.digest m, Sha256.length_digest m⟩
  blake3 m := ⟨Blake3.digest m, Blake3.length_digest m⟩
  k12 _ := zeroHash

/-- A memory and an entity that refers to it. -/
def twoRecords : Content where
  memory := ⟨[⟨⟨"a", [0], "", 0, "s", "x"⟩, 0, 0, oneF32⟩], 1⟩
  sessions := []
  knowledge := ⟨[⟨0, "e", "concept", 0⟩], [], [], 1⟩

theorem verifyContent_binds_twoRecords :
    ∃ hex, contentRootHex realHashers twoRecords = some hex ∧
      verifyContent realHashers (fun _ => "") twoRecords (some hex) true = .ok () ∧
      twoRecords.Covers twoRecords := by
  obtain ⟨hex, hhex, hok⟩ : ∃ hex ∈ contentRootHex realHashers twoRecords, verifyContent
    realHashers (fun _ => "") twoRecords (some hex) true = .ok () := by decide +kernel
  have haddressable : twoRecords.Addressable := by
    constructor <;> decide +kernel
  exact ⟨hex, hhex, hok, verifyContent_binds haddressable haddressable (by decide +kernel) hhex hok⟩

end ClawHdf5.Agent
