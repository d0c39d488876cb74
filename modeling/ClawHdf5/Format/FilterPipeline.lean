import ClawHdf5.Format.Basic

/-!
# Filter pipeline messages

The message that lists a dataset's filters, in its two versions. Version 1 pads names and client
data to eight bytes and stores a name for every filter; version 2 stores a name only for filters
outside the reserved range, and pads nothing.
-/

namespace ClawHdf5.Format

open Bytes Fallible List

structure FilterDescription where
  filterId : ℕ
  name : Option String
  flags : ℕ
  clientData : List ℕ
  deriving DecidableEq

/-- The filters of a dataset, in the order they are applied. -/
structure FilterPipeline where
  version : ℕ
  filters : List FilterDescription
  deriving DecidableEq

def filterDeflate : ℕ := 1
def filterShuffle : ℕ := 2
def filterFletcher32 : ℕ := 3
def filterSzip : ℕ := 4
def filterNbit : ℕ := 5
def filterScaleoffset : ℕ := 6
def filterLz4 : ℕ := 32004
def filterZstd : ℕ := 32015
def filterPcodec : ℕ := 32023

/-! ### Writing -/

/-- `n` rounded up to a multiple of eight. -/
def padTo8 (n : ℕ) : ℕ := (n + 7) / 8 * 8

/-- A name with the zero byte that ends it. -/
def nameBytes (name : String) : Bytes := utf8Bytes name ++ [0]

def clientBytes (clientData : List ℕ) : Bytes := clientData.flatMap (leBytes 4)

/-- One filter of a version 1 message. -/
def FilterDescription.serializeV1 (f : FilterDescription) : Bytes :=
  let name := match f.name with
    | some name => nameBytes name
    | none => []
  leBytes 2 f.filterId ++ leBytes 2 name.length ++ leBytes 2 f.flags ++
    leBytes 2 f.clientData.length ++
    name ++ replicate (padTo8 name.length - name.length) 0 ++
    clientBytes f.clientData ++ (if f.clientData.length % 2 ≠ 0 then replicate 4 0 else [])

/-- One filter of a version 2 message. -/
def FilterDescription.serializeV2 (f : FilterDescription) : Bytes :=
  let name := match f.name with
    | some name => nameBytes name
    | none => [0]
  leBytes 2 f.filterId ++
    (if f.filterId ≥ 256 then
      leBytes 2 name.length ++ leBytes 2 f.flags ++ leBytes 2 f.clientData.length ++ name
    else leBytes 2 f.flags ++ leBytes 2 f.clientData.length) ++
    clientBytes f.clientData

def FilterPipeline.serialize (p : FilterPipeline) : Bytes :=
  match p.version with
  | 1 => leBytes 1 1 ++ leBytes 1 p.filters.length ++ replicate 6 0 ++
      p.filters.flatMap (·.serializeV1)
  | 2 => leBytes 1 2 ++ leBytes 1 p.filters.length ++ p.filters.flatMap (·.serializeV2)
  | version => leBytes 1 version ++ [0]

/-! ### Reading -/

/-- The name in a field: what precedes the first zero byte, if it is a string. -/
def decodeName (field : Bytes) : String := (fromUtf8 (field.takeWhile (· != 0))).getD ""

/-- `n` words from `pos` on. -/
def readWords (data : Bytes) : ℕ → ℕ → Run (List ℕ)
  | 0, _ => .ok []
  | n + 1, pos => do
    let word ← leAt data pos 4
    let words ← readWords data n (pos + 4)
    .ok (word :: words)

/-- The name of a filter and the position behind its field, `width` bytes wide. -/
def readName (data : Bytes) (nameLength width pos : ℕ) : Run (Option String × ℕ) := do
  if nameLength > 0 then
    ensureLen data pos nameLength
    let field ← slice data pos (pos + nameLength)
    .ok (some (decodeName field), pos + width)
  else .ok (none, pos)

/-- One filter of a version 1 message, and the position behind it. -/
def parseFilterV1 (data : Bytes) (pos : ℕ) : Run (FilterDescription × ℕ) := do
  ensureLen data pos 8
  let filterId ← leAt data pos 2
  let nameLength ← leAt data (pos + 2) 2
  let flags ← leAt data (pos + 4) 2
  let numClientData ← leAt data (pos + 6) 2
  let (name, pos) ← readName data nameLength (padTo8 nameLength) (pos + 8)
  ensureLen data pos (numClientData * 4)
  let clientData ← readWords data numClientData pos
  let pos := pos + numClientData * 4
  .ok (⟨filterId, name, flags, clientData⟩, if numClientData % 2 ≠ 0 then pos + 4 else pos)

/-- One filter of a version 2 message, and the position behind it. -/
def parseFilterV2 (data : Bytes) (pos : ℕ) : Run (FilterDescription × ℕ) := do
  ensureLen data pos 2
  let filterId ← leAt data pos 2
  let (nameLength, pos) ←
    if filterId ≥ 256 then do
      ensureLen data (pos + 2) 2
      let nameLength ← leAt data (pos + 2) 2
      .ok (nameLength, pos + 4)
    else .ok (0, pos + 2)
  ensureLen data pos 4
  let flags ← leAt data pos 2
  let numClientData ← leAt data (pos + 2) 2
  let (name, pos) ← readName data nameLength nameLength (pos + 4)
  ensureLen data pos (numClientData * 4)
  let clientData ← readWords data numClientData pos
  .ok (⟨filterId, name, flags, clientData⟩, pos + numClientData * 4)

/-- `n` filters from `pos` on. -/
def parseFilters (parseFilter : Bytes → ℕ → Run (FilterDescription × ℕ)) (data : Bytes) :
    ℕ → ℕ → Run (List FilterDescription)
  | 0, _ => .ok []
  | n + 1, pos => do
    let (filter, pos) ← parseFilter data pos
    let filters ← parseFilters parseFilter data n pos
    .ok (filter :: filters)

def FilterPipeline.parse (data : Bytes) : Run FilterPipeline := do
  ensureLen data 0 2
  let version ← byteAt data 0
  let numberOfFilters ← byteAt data 1
  match version with
  | 1 => do
    ensureLen data 0 8
    let filters ← parseFilters parseFilterV1 data numberOfFilters 8
    .ok ⟨1, filters⟩
  | 2 => do
    let filters ← parseFilters parseFilterV2 data numberOfFilters 2
    .ok ⟨2, filters⟩
  | version => fail (.invalidFilterPipelineVersion version)

/-! ### Reading back what was written -/

/-- A filter whose version 2 encoding determines it: every field fits its width, and there is a
name exactly when one is stored. -/
structure FilterDescription.Canonical (f : FilterDescription) : Prop where
  filterId_lt : f.filterId < 256 ^ 2
  flags_lt : f.flags < 256 ^ 2
  length_lt : f.clientData.length < 256 ^ 2
  clientData_lt : ∀ value ∈ f.clientData, value < 256 ^ 4
  name_none : f.filterId < 256 → f.name = none
  name_some : 256 ≤ f.filterId →
    ∃ name, f.name = some name ∧ 0 ∉ utf8Bytes name ∧ (nameBytes name).length < 256 ^ 2

variable {data : Bytes} {pos : ℕ}

theorem decodeName_nameBytes {name : String} (h : 0 ∉ utf8Bytes name) :
    decodeName (nameBytes name) = name := by
  have htake : (nameBytes name).takeWhile (· != 0) = utf8Bytes name := by
    have hne : ∀ b ∈ utf8Bytes name, (b != 0) = true := fun b hb => by
      rw [bne_iff_ne]
      rintro rfl
      exact h hb
    rw [nameBytes, takeWhile_append_of_pos hne]
    simp
  rw [decodeName, htake, fromUtf8_eq_some.mpr rfl, Option.getD_some]

theorem readWords_of_standsAt {words : List ℕ} (hwords : ∀ word ∈ words, word < 256 ^ 4)
    (h : StandsAt data pos (clientBytes words)) : readWords data words.length pos = .ok words := by
  induction words generalizing pos with
  | nil => rfl
  | cons word words ih =>
    obtain ⟨hword, hwords⟩ := forall_mem_cons.mp hwords
    rw [clientBytes, flatMap_cons, standsAt_append, length_leBytes] at h
    rw [length_cons, readWords, leAt_of_standsAt h.1 hword, ok_bind, ih hwords h.2, ok_bind]

theorem length_clientBytes (words : List ℕ) : (clientBytes words).length = words.length * 4 :=
  Overwrite.length_slots (fun _ => length_leBytes 4 _) words

theorem readName_of_standsAt {field : Bytes} (hdata : data.length < 2 ^ 64) (width : ℕ)
    (hfield : 0 < field.length) (h : StandsAt data pos field) :
    readName data field.length width pos = .ok (some (decodeName field), pos + width) := by
  rw [readName, if_pos hfield, ensureLen_of_le h.le (by have := h.le; omega), ok_bind,
    slice_of_standsAt h, ok_bind]

theorem parseFilterV2_of_standsAt {f : FilterDescription} (hf : f.Canonical)
    (hdata : data.length < 2 ^ 64) (h : StandsAt data pos f.serializeV2) :
    parseFilterV2 data pos = .ok (f, pos + f.serializeV2.length) := by
  have hle := h.le
  obtain ⟨filterId, name, flags, clientData⟩ := f
  obtain ⟨hid, hflags, hlen, hclient, hnone, hsome⟩ := hf
  have hensure {p n : ℕ} (hp : p + n ≤ data.length) : ensureLen data p n = .ok () :=
    ensureLen_of_le hp (by omega)
  rcases lt_or_ge filterId 256 with hlt | hge
  · obtain rfl := hnone hlt
    simp only [FilterDescription.serializeV2, if_neg (not_le.mpr hlt), standsAt_append,
      length_append, length_leBytes, length_clientBytes, ← add_assoc] at h hle ⊢
    obtain ⟨⟨hId, hFlags, hCount⟩, hWords⟩ := h
    simp [parseFilterV2, hensure (show pos + 2 ≤ data.length by omega), leAt_of_standsAt hId hid,
      if_neg (not_le.mpr hlt), hensure (show pos + 2 + 4 ≤ data.length by omega),
      leAt_of_standsAt hFlags hflags, leAt_of_standsAt hCount hlen, readName,
      hensure (show pos + 2 + 4 + clientData.length * 4 ≤ data.length by omega),
      readWords_of_standsAt hclient hWords]
  · obtain ⟨name, rfl, hzero, hname⟩ := hsome hge
    have hpos : 0 < (nameBytes name).length := by simp [nameBytes]
    simp only [FilterDescription.serializeV2, if_pos hge, standsAt_append, length_append,
      length_leBytes, length_clientBytes, ← add_assoc] at h hle ⊢
    obtain ⟨⟨hId, ⟨⟨hLength, hFlags⟩, hCount⟩, hName⟩, hWords⟩ := h
    simp [parseFilterV2, hensure (show pos + 2 ≤ data.length by omega), leAt_of_standsAt hId hid,
      if_pos hge, hensure (show pos + 2 + 2 ≤ data.length by omega),
      leAt_of_standsAt hLength hname, hensure (show pos + 4 + 4 ≤ data.length by omega),
      leAt_of_standsAt hFlags hflags, leAt_of_standsAt hCount hlen,
      readName_of_standsAt hdata _ hpos hName,
      hensure (show pos + 4 + 4 + (nameBytes name).length + clientData.length * 4 ≤ data.length by
        omega), readWords_of_standsAt hclient hWords, decodeName_nameBytes hzero]

theorem parseFilters_of_standsAt {filters : List FilterDescription}
    (hfilters : ∀ f ∈ filters, f.Canonical) (hdata : data.length < 2 ^ 64)
    (h : StandsAt data pos (filters.flatMap (·.serializeV2))) :
    parseFilters parseFilterV2 data filters.length pos = .ok filters := by
  induction filters generalizing pos with
  | nil => rfl
  | cons f filters ih =>
    obtain ⟨hf, hfilters⟩ := forall_mem_cons.mp hfilters
    rw [flatMap_cons, standsAt_append] at h
    rw [length_cons, parseFilters, parseFilterV2_of_standsAt hf hdata h.1, ok_bind]
    dsimp only
    rw [ih hfilters h.2, ok_bind]

namespace FilterPipeline

/-- A pipeline whose version 2 message determines it. -/
structure Canonical (p : FilterPipeline) : Prop where
  version_eq : p.version = 2
  length_lt : p.filters.length < 256
  filters : ∀ f ∈ p.filters, f.Canonical

theorem parse_of_standsAt {p : FilterPipeline} (hp : p.Canonical) (hdata : data.length < 2 ^ 64)
    (h : StandsAt data 0 p.serialize) : parse data = .ok p := by
  obtain ⟨version, filters⟩ := p
  obtain ⟨rfl, hlen, hfilters⟩ := hp
  have hle := h.le
  simp only [serialize, standsAt_append, length_append, length_leBytes] at h hle
  obtain ⟨⟨hversion, hcount⟩, hfilter⟩ := h
  rw [parse, ensureLen_bind (by omega) (by omega), byteAt_bind hversion (by decide),
    byteAt_bind hcount hlen, parseFilters_of_standsAt hfilters hdata hfilter]
  rfl

theorem length_serializeV2_le {f : FilterDescription} (hf : f.Canonical) :
    f.serializeV2.length ≤ 2 ^ 20 := by
  obtain ⟨-, -, hlen, -, -, hsome⟩ := hf
  rw [FilterDescription.serializeV2]
  split_ifs with hge
  · obtain ⟨name, hname, -, hnameLength⟩ := hsome hge
    simp only [hname, length_append, length_leBytes, length_clientBytes]
    omega
  · simp only [length_append, length_leBytes, length_clientBytes]
    omega

theorem length_flatMap_le {filters : List FilterDescription} (h : ∀ f ∈ filters, f.Canonical) :
    (filters.flatMap (·.serializeV2)).length ≤ filters.length * 2 ^ 20 := by
  induction filters with
  | nil => simp
  | cons f filters ih =>
    obtain ⟨hf, hfilters⟩ := forall_mem_cons.mp h
    have hle := length_serializeV2_le hf
    have hrest := ih hfilters
    rw [flatMap_cons, length_append, length_cons]
    omega

theorem parse_serialize {p : FilterPipeline} (hp : p.Canonical) : parse p.serialize = .ok p := by
  refine parse_of_standsAt hp ?_ (standsAt_self _)
  obtain ⟨version, filters⟩ := p
  obtain ⟨rfl, hlen, hfilters⟩ := hp
  have hle := length_flatMap_le hfilters
  simp only [serialize, length_append, length_leBytes] at hlen hle ⊢
  omega

end FilterPipeline

end ClawHdf5.Format
