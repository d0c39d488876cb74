import ClawHdf5.Format.EaWriter

/-!
# Extensible arrays that are read back

Writer and reader of an extensible array each derive the sizes of the data blocks. The reader takes
the second data block to have 16 elements where the writer has put 32 into it, so that chunks from
number 36 on are dropped or taken for other chunks. An array of up to 36 chunks is read back.
-/

namespace ClawHdf5.Format

open Bytes Fallible RowMajor List Except

/-- An extensible array in a file, with the dataset it is the index of: one chunk for each cell of
the dataset's grid, in row-major order. -/
structure WrittenArray where
  file : Bytes
  base : ℕ
  chunks : List WrittenChunk
  hasFilters : Bool
  datasetDims : List ℕ
  chunkDims : List ℕ
  elemSize : ℕ
  rank_eq : datasetDims.length = chunkDims.length
  chunkDims_ne_zero : ∀ n ∈ chunkDims, n ≠ 0
  length_chunks : chunks.length = (chunkCounts datasetDims chunkDims).prod
  typed : ∀ chunk ∈ chunks, chunk.Typed
  length_file : file.length < 2 ^ 64
  standsAt : StandsAt file base (buildExtensibleArrayAt chunks 8 8 hasFilters base)

/-- A chunk whose address and size can be told from its element: the address is not the undefined
one, and the size fits the size field and the reader's word. -/
def WrittenChunk.Storable (hasFilters : Bool) (sizeBytes chunkByteSize : ℕ)
    (chunk : WrittenChunk) : Prop :=
  chunk.address ≠ 2 ^ 64 - 1 ∧
    if hasFilters then chunk.compressedSize < 256 ^ sizeBytes ∧ chunk.compressedSize < 2 ^ 32
    else chunk.compressedSize = chunkByteSize % 2 ^ 32

theorem mod_mod_eq_self_iff {n b c : ℕ} (hb : 0 < b) (hc : 0 < c) :
    n % b % c = n ↔ n < b ∧ n < c := by
  constructor
  · intro h
    have hlt := Nat.mod_lt (n % b) hc
    have hle := Nat.mod_le (n % b) c
    have hltb := Nat.mod_lt n hb
    omega
  · rintro ⟨hltb, hltc⟩
    rw [Nat.mod_eq_of_lt hltb, Nat.mod_eq_of_lt hltc]

namespace WrittenArray

variable (a : WrittenArray)

def counts : List ℕ := chunkCounts a.datasetDims a.chunkDims

def chunkByteSize : ℕ := a.chunkDims.prod * a.elemSize

/-- The entries are the chunks that were written: entry `i` has the address, the stored size and
the grid offset of chunk `i`. -/
def Lists (infos : List ChunkInfo) : Prop :=
  infos.length = a.chunks.length ∧
    ∀ (i : ℕ) chunk info, a.chunks[i]? = some chunk → infos[i]? = some info →
      info.address = chunk.address ∧ info.chunkSize = chunk.compressedSize ∧
        info.offsets = gridOffsets (unflatten a.counts i) a.chunkDims

/-- The array is parsed and read, and the result lists the chunks that were written. -/
def ReadsBack : Prop :=
  ∃ header infos, ExtensibleArrayHeader.parse a.file a.base 8 8 = .ok header ∧
    readExtensibleArrayChunks a.file header a.datasetDims a.chunkDims a.elemSize 8 = .ok infos ∧
    a.Lists infos

/-- Every chunk's address and size can be told from its element. -/
def AllStorable : Prop :=
  ∀ chunk ∈ a.chunks,
    chunk.Storable a.hasFilters (chunkSizeBytes a.chunks a.hasFilters) a.chunkByteSize

abbrev width : ℕ := elementSize a.chunks 8 a.hasFilters

abbrev element (i : ℕ) : Bytes := eaElement a.chunks 8 a.hasFilters i

abbrev header : ExtensibleArrayHeader :=
  ⟨clientId a.hasFilters, a.width, eaMaxNelmtsBits, eaIdxBlkElmts, eaMinDblkNelmts,
    eaSuperBlkMinNelmts, eaMaxDblkNelmtsBits, a.chunks.length, a.base + aehdSize 8 8⟩

/-- What the readers of the array's elements share. -/
abbrev context : EaContext := ⟨a.file, a.header, 8, a.chunkByteSize, a.counts, a.chunkDims⟩

/-- What is read from the element of slot `i` when it is taken for that of slot `j`. -/
def info (j i : ℕ) : Option ChunkInfo :=
  (a.chunks[i]?.bind
      (·.readBack a.hasFilters (chunkSizeBytes a.chunks a.hasFilters) a.chunkByteSize)).map
    fun (address, size, filterMask) =>
      ⟨size, filterMask, indexToChunkOffsets j a.counts a.chunkDims, address⟩

/-- The entries read from `count` slots from `i` on, when they are taken for those from `j` on. -/
def infos (count j i : ℕ) : List ChunkInfo :=
  (range count).filterMap fun k => a.info (j + k) (i + k)

/-- The entries read from data blocks: the reader takes `readSizes` of the slots of the blocks, and
counts only those. -/
def blockInfos : (sizes readSizes : List ℕ) → (j i : ℕ) → List ChunkInfo
  | size :: sizes, count :: readSizes, j, i =>
    a.infos count j i ++ blockInfos sizes readSizes (j + count) (i + size)
  | _, _, _, _ => []

/-- The entries read from the data blocks that the writer writes. -/
def directInfos : List ChunkInfo :=
  a.blockInfos dblkSizes directReadSizes eaIdxBlkElmts eaIdxBlkElmts

/-- The data blocks of the given sizes, with their addresses. -/
abbrev blocks (sizes : List ℕ) (i cursor : ℕ) : Bytes × Bytes :=
  eaBlocks a.chunks 8 a.hasFilters a.base sizes i cursor

/-- The addresses of the data blocks, as numbers. -/
def blockAddrs : (sizes : List ℕ) → (chunkIdx cursor : ℕ) → List ℕ
  | [], _, _ => []
  | nelmts :: sizes, chunkIdx, cursor =>
    if a.chunks.length ≤ chunkIdx then (2 ^ 64 - 1) :: blockAddrs sizes chunkIdx cursor
    else cursor :: blockAddrs sizes (chunkIdx + nelmts) (cursor + (18 + nelmts * a.width + 4))

variable {a} {pos : ℕ}

/-! ### The entries -/

theorem infos_add (m n j i : ℕ) :
    a.infos (m + n) j i = a.infos m j i ++ a.infos n (j + m) (i + m) := by
  simp [infos, range_add, add_assoc]

theorem infos_succ (count j i : ℕ) :
    a.infos (count + 1) j i = (a.info j i).toList ++ a.infos count (j + 1) (i + 1) := by
  rw [add_comm, infos_add]
  simp only [infos, range_one, filterMap_cons]
  cases a.info j i <;> rfl

theorem infos_of_le {i : ℕ} (hi : a.chunks.length ≤ i) (count j : ℕ) : a.infos count j i = [] := by
  rw [infos, filterMap_eq_nil_iff]
  intro k _
  rw [info, getElem?_eq_none (by omega)]
  rfl

theorem infos_min (count : ℕ) : a.infos (min count a.chunks.length) 0 0 = a.infos count 0 0 := by
  rcases le_total count a.chunks.length with hmin | hmin
  · rw [min_eq_left hmin]
  · have hadd := a.infos_add a.chunks.length (count - a.chunks.length) 0 0
    rw [Nat.add_sub_cancel' hmin, infos_of_le (Nat.le_add_left _ 0), append_nil] at hadd
    rw [min_eq_right hmin, hadd]

theorem blockInfos_of_le {sizes readSizes : List ℕ} {i : ℕ} (hi : a.chunks.length ≤ i) (j : ℕ) :
    a.blockInfos sizes readSizes j i = [] := by
  induction sizes generalizing readSizes i j with
  | nil => rfl
  | cons size sizes ih =>
    cases readSizes with
    | nil => rfl
    | cons count readSizes => rw [blockInfos, infos_of_le hi, nil_append, ih (by omega)]

/-! ### Reading the elements back -/

/-- An element within the file is read as one of a fixed array. -/
theorem readElement_eq {ctx : EaContext} {j : ℕ} (hlt : ctx.fileData.length < 2 ^ 64)
    (hle : pos + ctx.header.elementSize ≤ ctx.fileData.length) :
    readElement ctx j pos = (do
      let found ← parseFaElement ctx.fileData pos ctx.header.clientId ctx.offsetSize
        ctx.header.elementSize ctx.chunkByteSize
      .ok (found.map fun (address, size, filterMask) =>
          ⟨size, filterMask, indexToChunkOffsets j ctx.counts ctx.chunkDimensions, address⟩,
        if ctx.header.clientId = 0 then ctx.offsetSize else ctx.header.elementSize)) := by
  simp only [readElement, parseFaElement]
  split_ifs with hclient
  · rw [bind_assoc]
    refine bind_congr fun _ => ?_
    rw [bind_assoc]
    refine bind_congr fun undefined => ?_
    cases undefined
    · simp
    · rfl
  · rw [bind_assoc]
    by_cases hsmall : ctx.header.elementSize < ctx.offsetSize + 4
    · rw [reject, if_pos hsmall]
      rfl
    · rw [reject_of_not hsmall, ok_bind,
        show ctx.offsetSize + (ctx.header.elementSize - ctx.offsetSize - 4) + 4 =
          ctx.header.elementSize by omega, ensureLen_bind hle (by omega),
        wrap_of_lt (by omega), reject_bind (by omega), bind_assoc]
      refine bind_congr fun undefined => ?_
      cases undefined
      · simp
      · rfl

/-- An element is read back where it stands, whatever slot it is taken for. -/
theorem readElement_of_standsAt {i j : ℕ} (h : StandsAt a.file pos (a.element i)) :
    readElement a.context j pos = .ok (a.info j i, a.width) := by
  have hle := h.le
  rw [length_eaElement] at hle
  rw [element, eaElement_eq] at h
  have htyped : (a.chunks[i]?.getD ⟨2 ^ 64 - 1, 0, 0, 0⟩).Typed := by
    cases hi : a.chunks[i]? with
    | none => exact ⟨by decide, by decide⟩
    | some chunk => exact a.typed chunk (mem_of_getElem? hi)
  rw [readElement_eq a.length_file hle]
  rw [parseFaElement_of_standsAt a.length_file htyped h, info]
  refine congrArg ok (Prod.ext ?_ ?_)
  · cases a.chunks[i]? <;> rfl
  · have hwidth (b : Bool) : (if clientId b = 0 then 8 else elementSize a.chunks 8 b) =
        elementSize a.chunks 8 b := by cases b <;> rfl
    exact hwidth a.hasFilters

theorem readElements_of_standsAt {count i j : ℕ}
    (h : ∀ k < count, StandsAt a.file (pos + k * a.width) (a.element (i + k))) :
    readElements a.context count j pos = .ok (a.infos count j i, pos + count * a.width) := by
  induction count generalizing i j pos with
  | zero => simp [readElements, infos]
  | succ count ih =>
    have hfile := a.length_file
    have hfirst := h 0 (Nat.succ_pos count)
    rw [zero_mul, add_zero, add_zero] at hfirst
    have hle : pos + a.width ≤ _ := length_eaElement a.chunks a.hasFilters i ▸ hfirst.le
    have hrest : ∀ k < count,
        StandsAt a.file (pos + a.width + k * a.width) (a.element (i + 1 + k)) := by
      intro k hk
      have hnext := h (k + 1) (Nat.succ_lt_succ hk)
      rwa [Nat.succ_mul, add_comm (k * _), ← add_assoc, add_comm k 1,
        ← add_assoc] at hnext
    rw [readElements, readElement_of_standsAt hfirst, ok_bind]
    dsimp only
    rw [wrap_of_lt (by omega), ih hrest, ok_bind, infos_succ, Nat.succ_mul,
      add_comm (count * _), ← add_assoc]

/-- The first slots of a data block are read back, whatever slots they are taken for. -/
theorem readDataBlockElements_of_standsAt {address nelmts count i j : ℕ}
    (hcount : count ≤ nelmts) (hpaged : count ≤ 2 ^ eaMaxNelmtsBits)
    (h : StandsAt a.file address (eadb a.chunks 8 a.hasFilters a.base i nelmts)) :
    readDataBlockElements a.context address count j = .ok (a.infos count j i) := by
  have hfile := a.length_file
  have hle := h.le
  rw [length_eadb] at hle
  -- the slots stand behind the head of 18 bytes
  obtain ⟨hhead, hslots⟩ := standsAt_append.mp (standsAt_append.mp h).1
  obtain ⟨hslice, hstart⟩ := sliceFrom_of_standsAt hhead
  have hsig : slice (a.file.drop address) 0 4 = .ok (utf8Bytes "EADB") := by
    simp only [standsAt_append] at hstart
    exact slice_of_standsAt hstart.1.1.1.1
  have hslotAt : ∀ k < count, StandsAt a.file (address + 18 + k * a.width) (a.element (i + k)) :=
    fun k hk => hslots.slot (f := fun slot => a.element (i + slot))
      (fun slot => length_eaElement a.chunks a.hasFilters (i + slot))
      (getElem?_range (hk.trans_le hcount))
  have hheadSize : address + (4 + 1 + 1 + 8) + (eaMaxNelmtsBits + 7) / 8 = address + 18 := rfl
  simp only [readDataBlockElements]
  rw [wrap_of_lt (by omega), reject_bind (by omega), hslice, ok_bind, hsig, ok_bind,
    reject_bind (not_not.mpr rfl), reject_bind (by decide), if_pos hpaged,
    hheadSize, readElements_of_standsAt hslotAt, ok_bind]

/-! ### Reading the data blocks back -/

theorem length_blockAddrs (sizes : List ℕ) (i cursor : ℕ) :
    (a.blockAddrs sizes i cursor).length = sizes.length := by
  induction sizes generalizing i cursor with
  | nil => rfl
  | cons nelmts sizes ih =>
    rw [blockAddrs]
    split_ifs <;> simp [ih]

theorem blocks_fst (sizes : List ℕ) (i cursor : ℕ) :
    (a.blocks sizes i cursor).1 = (a.blockAddrs sizes i cursor).flatMap (leBytes 8) := by
  induction sizes generalizing i cursor with
  | nil => rfl
  | cons nelmts sizes ih =>
    rw [blocks, eaBlocks, blockAddrs]
    split_ifs with hdone
    · rw [flatMap_cons, ← ih]
      rfl
    · dsimp only
      rw [flatMap_cons, ← ih, length_eadb]
      rfl

theorem readAddresses_of_standsAt {addrs : List ℕ} (haddrs : ∀ x ∈ addrs, x < 2 ^ 64)
    (h : StandsAt a.file pos (addrs.flatMap (leBytes 8))) :
    readAddresses a.file 8 addrs.length pos = .ok (addrs, pos + addrs.length * 8) := by
  induction addrs generalizing pos with
  | nil => simp [readAddresses]
  | cons x addrs ih =>
    have hfile := a.length_file
    obtain ⟨hx, haddrs⟩ := forall_mem_cons.mp haddrs
    rw [flatMap_cons, standsAt_append, length_leBytes] at h
    have hle := h.1.le
    rw [length_leBytes] at hle
    rw [length_cons, readAddresses, wrap_of_lt (by omega), if_neg (by omega),
      readOffset_of_standsAt h.1 hx (by decide) (by omega), ok_bind, ih haddrs h.2, ok_bind,
      Nat.succ_mul, add_comm (addrs.length * 8), add_assoc]

theorem readDataBlocks_of_standsAt {sizes readSizes : List ℕ}
    (hsizes : Forall₂ (fun count size => count ≤ size ∧ count ≤ 2 ^ eaMaxNelmtsBits)
      readSizes sizes) {i j cursor : ℕ} (h : StandsAt a.file cursor (a.blocks sizes i cursor).2) :
    readDataBlocks a.context ((a.blockAddrs sizes i cursor).zip readSizes) j =
      .ok (a.blockInfos sizes readSizes j i, j + readSizes.sum) := by
  induction hsizes generalizing i j cursor with
  | nil => simp [readDataBlocks, blockInfos]
  | @cons count size readSizes sizes hcount _ ih =>
    rw [blocks, eaBlocks] at h
    rw [blockAddrs, blockInfos, sum_cons]
    split_ifs at h ⊢ with hdone
    · -- no block
      have hread := @ih i (j + count) cursor h
      rw [zip_cons_cons, readDataBlocks, whenDefined, if_pos (by rfl), ok_bind, hread, ok_bind,
        infos_of_le hdone, blockInfos_of_le hdone, blockInfos_of_le (by omega), add_assoc]
    · have hfile := a.length_file
      obtain ⟨hblock, hrest⟩ := standsAt_append.mp h
      have hle := hblock.le
      rw [length_eadb] at hle hrest
      have hdefined : isUndefinedAddr cursor 8 = false := by
        simp only [isUndefinedAddr, decide_eq_false_iff_not]
        omega
      have hread := @ih (i + size) (j + count) _ hrest
      rw [zip_cons_cons, readDataBlocks, whenDefined, hdefined, if_neg Bool.false_ne_true,
        readDataBlockElements_of_standsAt hcount.1 hcount.2 hblock, ok_bind, hread, ok_bind,
        add_assoc]

theorem readDataBlocks_append {ctx : EaContext} {xs ys : List (ℕ × ℕ)} {j j' j'' : ℕ}
    {infos infos' : List ChunkInfo} (hxs : readDataBlocks ctx xs j = .ok (infos, j'))
    (hys : readDataBlocks ctx ys j' = .ok (infos', j'')) :
    readDataBlocks ctx (xs ++ ys) j = .ok (infos ++ infos', j'') := by
  induction xs generalizing j infos with
  | nil =>
    obtain ⟨rfl, rfl⟩ := hxs
    exact hys
  | cons block xs ih =>
    simp only [readDataBlocks, bind_ok_iff] at hxs
    obtain ⟨first, hfirst, ⟨rest, next⟩, hrest, rfl, rfl⟩ := hxs
    rw [cons_append, readDataBlocks, hfirst, ok_bind, ih hrest, ok_bind, append_assoc]

/-- Blocks without an address are skipped. -/
theorem readDataBlocks_undefined (sizes : List ℕ) (j : ℕ) :
    readDataBlocks a.context ((replicate sizes.length (2 ^ 64 - 1)).zip sizes) j =
      .ok ([], j + sizes.sum) := by
  induction sizes generalizing j with
  | nil => rfl
  | cons size sizes ih =>
    have hrest := ih (j + size)
    rw [length_cons, replicate_succ, zip_cons_cons, readDataBlocks, hrest, add_assoc]
    rfl

theorem blockAddrs_lt {sizes : List ℕ} {i cursor : ℕ}
    (h : StandsAt a.file cursor (a.blocks sizes i cursor).2) :
    ∀ x ∈ a.blockAddrs sizes i cursor, x < 2 ^ 64 := by
  induction sizes generalizing i cursor with
  | nil => simp [blockAddrs]
  | cons nelmts sizes ih =>
    rw [blocks, eaBlocks] at h
    rw [blockAddrs]
    split_ifs at h ⊢
    · exact forall_mem_cons.mpr ⟨by omega, ih h⟩
    · have hfile := a.length_file
      obtain ⟨hblock, hrest⟩ := standsAt_append.mp h
      have hle := hblock.le
      rw [length_eadb] at hle hrest
      exact forall_mem_cons.mpr ⟨by omega, ih hrest⟩

/-- The chunks of the data blocks that the writer writes are read first, and are all that is read
unless the reader expects super blocks. -/
theorem readBlocks_of_standsAt {cursor : ℕ}
    (haddrs : StandsAt a.file pos ((a.blocks dblkSizes eaIdxBlkElmts cursor).1 ++
      (replicate (eaNsblks - eaSuperBlkMinNelmts) (undefinedAddress 8)).flatten))
    (h : StandsAt a.file cursor (a.blocks dblkSizes eaIdxBlkElmts cursor).2) :
    ∃ superBlocks : Run (List ChunkInfo), readBlocks a.context pos =
      if a.chunks.length ≤ 692 then .ok a.directInfos
      else (do
        let rest ← superBlocks
        .ok (a.directInfos ++ rest)) := by
  set addrs := a.blockAddrs dblkSizes eaIdxBlkElmts cursor with haddrsDef
  -- the addresses that the reader takes for those of data blocks
  have hall : StandsAt a.file pos
      ((addrs ++ replicate furtherReadSizes.length (2 ^ 64 - 1)).flatMap (leBytes 8)) := by
    rw [blocks_fst] at haddrs
    rw [flatMap_append]
    refine standsAt_append.mpr ⟨(standsAt_append.mp haddrs).1, ?_⟩
    exact (standsAt_append.mp (show StandsAt a.file _ (_ ++ (replicate 16
      (undefinedAddress 8)).flatten) from (standsAt_append.mp haddrs).2)).1
  have hlt : ∀ x ∈ addrs ++ replicate furtherReadSizes.length (2 ^ 64 - 1), x < 2 ^ 64 := by
    rw [forall_mem_append]
    exact ⟨blockAddrs_lt h, by decide⟩
  have hlen : addrs.length = directReadSizes.length := length_blockAddrs _ _ _
  have hread : readAddresses a.file 8 (directReadSizes ++ furtherReadSizes).length pos =
      .ok (addrs ++ replicate furtherReadSizes.length (2 ^ 64 - 1), pos + 15 * 8) := by
    have := readAddresses_of_standsAt hlt hall
    rwa [length_append, hlen] at this
  have hblocks : readDataBlocks a.context
      ((addrs ++ replicate furtherReadSizes.length (2 ^ 64 - 1)).zip
        (directReadSizes ++ furtherReadSizes)) eaIdxBlkElmts = .ok (a.directInfos, 692) := by
    rw [zip_append hlen, ← append_nil a.directInfos]
    exact readDataBlocks_append
      (readDataBlocks_of_standsAt (show Forall₂ _ directReadSizes dblkSizes by decide) h)
      (readDataBlocks_undefined furtherReadSizes _)
  simp only [readBlocks]
  rw [directBlockSizes_eq, ok_bind, hread, ok_bind, hblocks]
  exact ⟨_, rfl⟩

/-! ### What is read -/

theorem standsAt_parts (a : WrittenArray) :
    let cursor := a.base + aehdSize 8 8 + aeibSize a.chunks 8 a.hasFilters
    let blocks := a.blocks dblkSizes (min eaIdxBlkElmts a.chunks.length) cursor
    StandsAt a.file a.base (aehdBody a.chunks 8 8 a.hasFilters a.base) ∧
      StandsAt a.file (a.base + aehdSize 8 8) (aeibBody a.chunks 8 a.hasFilters a.base blocks.1) ∧
      StandsAt a.file cursor blocks.2 := by
  intro cursor blocks
  set aehd := aehdBody a.chunks 8 8 a.hasFilters a.base with haehd
  set aeib := aeibBody a.chunks 8 a.hasFilters a.base blocks.1 with haeib
  have hlen : (aehd ++ checksum aehd).length = aehdSize 8 8 := by
    rw [length_append, length_aehdBody]
    rfl
  have hindexLength : (aeib ++ checksum aeib).length = aeibSize a.chunks 8 a.hasFilters := by
    rw [length_append, length_checksum, length_aeibBody _ _ _ (length_eaBlocks _ _ _ _ _ _).1]
  have h : StandsAt a.file a.base
      (aehd ++ checksum aehd ++ (aeib ++ checksum aeib) ++ blocks.2) := a.standsAt
  obtain ⟨hhead, hblocks⟩ := standsAt_append.mp h
  obtain ⟨hheader, hindex⟩ := standsAt_append.mp hhead
  rw [length_append, hlen, hindexLength, ← add_assoc] at hblocks
  rw [hlen] at hindex
  exact ⟨(standsAt_append.mp hheader).1, (standsAt_append.mp hindex).1, hblocks⟩

/-- The header of an array is read back. -/
theorem parse_eq (hcount : a.chunks.length < 2 ^ 64) :
    ExtensibleArrayHeader.parse a.file a.base 8 8 = .ok a.header := by
  obtain ⟨h, hindex, -⟩ := a.standsAt_parts
  have hfile := a.length_file
  have hbase := hindex.le
  have hclient : clientId a.hasFilters < 256 := by cases a.hasFilters <;> decide
  obtain ⟨-, helem⟩ := elementSize_le a.chunks a.hasFilters
  obtain ⟨hslice, hstart⟩ := sliceFrom_of_standsAt h
  have hsize : aehdSize 8 8 = 72 := rfl
  have haddressLt : a.base + aehdSize 8 8 < 256 ^ 8 := by
    omega
  have hsigLength : (utf8Bytes "EAHD").length = 4 := rfl
  simp only [aehdBody, writeLength, standsAt_append, length_append,
    length_leBytes, hsigLength, Nat.reduceEqDiff, if_false] at hstart
  obtain ⟨⟨⟨⟨⟨⟨⟨⟨⟨⟨⟨⟨⟨⟨⟨hsig, hversion⟩, hclientAt⟩, helemAt⟩, hbits⟩, hidx⟩, hmin⟩, hsuper⟩,
    hmaxbits⟩, -⟩, -⟩, -⟩, -⟩, hcountAt⟩, -⟩, haddress⟩ := hstart
  have hsigAt : slice (a.file.drop a.base) 0 4 = .ok (utf8Bytes "EAHD") := slice_of_standsAt hsig
  simp only [ExtensibleArrayHeader.parse]
  rw [wrap_of_lt (by omega), reject_bind (by omega), hslice, ok_bind, hsigAt, ok_bind,
    reject_bind (not_not.mpr rfl), byteAt_bind hversion (by decide), reject_bind (not_not.mpr rfl),
    byteAt_bind hclientAt hclient,
    byteAt_bind helemAt (by omega),
    byteAt_bind hbits (by decide),
    byteAt_bind hidx (by decide),
    byteAt_bind hmin (by decide),
    byteAt_bind hsuper (by decide),
    byteAt_bind hmaxbits (by decide),
    readOffset_of_standsAt hcountAt hcount (by decide) (by decide), ok_bind,
    readOffset_of_standsAt haddress haddressLt (by decide) (by decide), ok_bind]

/-- What is read from an array: the elements of the index block, those of the data blocks as far as
the reader takes them, and what it makes of super blocks when it expects any. -/
theorem read_eq (a : WrittenArray) : ∃ superBlocks : Run (List ChunkInfo),
      readExtensibleArrayChunks a.file a.header a.datasetDims a.chunkDims a.elemSize 8 =
        if a.chunks.length ≤ 692 then .ok (a.infos eaIdxBlkElmts 0 0 ++ a.directInfos)
        else (do
          let rest ← superBlocks
          .ok (a.infos eaIdxBlkElmts 0 0 ++ a.directInfos ++ rest)) := by
  have hfile := a.length_file
  obtain ⟨-, hindex, hblocks⟩ := a.standsAt_parts
  obtain ⟨hinline, hsupers⟩ := standsAt_append.mp hindex
  obtain ⟨hinline, haddrs⟩ := standsAt_append.mp hinline
  have haddrs := standsAt_append.mpr ⟨haddrs, by rwa [length_append, ← add_assoc] at hsupers⟩
  obtain ⟨hhead, hslots⟩ := standsAt_append.mp hinline
  have hslotsLength := Overwrite.length_slots (length_eaElement a.chunks a.hasFilters)
  rw [length_append, hslotsLength, ← add_assoc]
    at haddrs
  have hle := hhead.le
  rw [length_aeibHead] at hle
  obtain ⟨hslice, hstart⟩ := sliceFrom_of_standsAt hhead
  have hsig : slice (a.file.drop (a.base + aehdSize 8 8)) 0 4 = .ok (utf8Bytes "EAIB") := by
    simp only [standsAt_append] at hstart
    exact slice_of_standsAt hstart.1.1.1
  have hinlineRead := @readElements_of_standsAt a (a.base + aehdSize 8 8 + 14)
    (min eaIdxBlkElmts a.chunks.length) 0 0 fun k hk => by
      rw [zero_add]
      exact hslots.slot (length_eaElement a.chunks a.hasFilters)
        (getElem?_range (hk.trans_le (min_le_left _ _)))
  rw [infos_min] at hinlineRead
  simp only [readExtensibleArrayChunks]
  rw [numChunksPerDim_eq a.chunkDims_ne_zero a.rank_eq, ok_bind, wrap_of_lt (by omega),
    reject_bind (by omega), hslice, ok_bind, hsig]
  change ∃ superBlocks : Run (List ChunkInfo), (readElements a.context _ 0 _ >>= _) = _
  rw [hinlineRead, ok_bind]
  rcases lt_or_ge eaIdxBlkElmts a.chunks.length with hmore | hinlineOnly
  · rw [min_eq_left (le_of_lt hmore)] at haddrs hblocks ⊢
    obtain ⟨superBlocks, hread⟩ := readBlocks_of_standsAt haddrs hblocks
    refine ⟨superBlocks, ?_⟩
    rw [if_neg (not_le.mpr hmore)]
    refine (congrArg (· >>= _) hread).trans ?_
    split_ifs
    · rfl
    · cases superBlocks with
      | error e => rfl
      | ok rest => rw [ok_bind, ok_bind, ok_bind, append_assoc]
  · -- no data blocks
    refine ⟨.ok [], ?_⟩
    rw [if_pos hinlineOnly, if_pos (le_trans hinlineOnly (by decide)), directInfos,
      blockInfos_of_le hinlineOnly, append_nil]

/-- The entries that are read begin with those of the first 36 slots; then come the slots from 52
on, taken for those from 36 on. -/
theorem infos_append_directInfos (a : WrittenArray) :
    ∃ rest, a.infos eaIdxBlkElmts 0 0 ++ a.directInfos =
      a.infos 36 0 0 ++ (a.infos 16 36 52 ++ rest) ∧ (a.chunks.length ≤ 52 → rest = []) := by
  have hfirst : a.infos 36 0 0 = a.infos 4 0 0 ++ (a.infos 16 4 4 ++ a.infos 16 20 20) := by
    rw [← infos_add 16 16 4 4, ← infos_add 4 32 0 0]
  refine ⟨a.blockInfos [32, 64, 64] [32, 32, 32] 52 84, ?_,
    fun hle => blockInfos_of_le (by omega) 52⟩
  rw [hfirst]
  simp only [append_assoc]
  rfl

/-- Up to 36 chunks, the entries are those of the slots. -/
theorem read_eq_of_le (hle : a.chunks.length ≤ 36) :
    readExtensibleArrayChunks a.file a.header a.datasetDims a.chunkDims a.elemSize 8 =
      .ok (a.infos a.chunks.length 0 0) := by
  obtain ⟨superBlocks, hread⟩ := a.read_eq
  obtain ⟨rest, hinfos, hrest⟩ := a.infos_append_directInfos
  rw [hread, if_pos (by omega), hinfos, hrest (by omega), infos_of_le (by omega) 16 36,
    append_nil, append_nil, ← infos_min 36, min_eq_right hle]

/-- Whatever super blocks the reader expects, the entries it returns begin with those of the data
blocks. -/
theorem eq_append_of_read {infos : List ChunkInfo}
    (h : readExtensibleArrayChunks a.file a.header a.datasetDims a.chunkDims a.elemSize 8 =
      .ok infos) :
    ∃ rest, infos = a.infos 36 0 0 ++ (a.infos 16 36 52 ++ rest) ∧
      (a.chunks.length ≤ 52 → rest = []) := by
  obtain ⟨superBlocks, hread⟩ := a.read_eq
  obtain ⟨rest, hinfos, hrest⟩ := a.infos_append_directInfos
  rw [hread, hinfos] at h
  split_ifs at h with hle
  · exact ⟨rest, (ok.inj h).symm, hrest⟩
  · obtain ⟨more, -, hmore⟩ := bind_ok_iff.mp h
    refine ⟨rest ++ more, ?_, fun hlt => absurd hlt (by omega)⟩
    rw [← ok.inj hmore]
    simp

/-! ### Up to 36 chunks -/

/-- What is read from slot `i` is its chunk exactly when that is storable. -/
theorem info_eq_iff {i : ℕ} {chunk : WrittenChunk} (hi : a.chunks[i]? = some chunk) :
    (∃ info, a.info i i = some info ∧
      info.address = chunk.address ∧ info.chunkSize = chunk.compressedSize ∧
        info.offsets = gridOffsets (unflatten a.counts i) a.chunkDims) ↔
      chunk.Storable a.hasFilters (chunkSizeBytes a.chunks a.hasFilters) a.chunkByteSize := by
  have hlt : i < a.counts.prod := a.length_chunks ▸ lt_of_getElem? hi
  have hrank : a.counts.length = a.chunkDims.length := by
    rw [counts, chunkCounts, length_zipWith, a.rank_eq, min_self]
  rw [info, hi, Option.bind_some, WrittenChunk.readBack, WrittenChunk.Storable,
    indexToChunkOffsets_eq hrank hlt]
  have hwidth : 0 < 256 ^ chunkSizeBytes a.chunks a.hasFilters := Nat.pow_pos (by decide)
  by_cases hundefined : chunk.address = 2 ^ 64 - 1
  · -- the undefined address stands for no chunk
    rw [if_pos hundefined]
    constructor
    · rintro ⟨_, hnone, -⟩
      cases hnone
    · intro hstorable
      exact absurd hundefined hstorable.1
  · rw [if_neg hundefined]
    split_ifs
    · constructor
      · rintro ⟨_, ⟨rfl⟩, -, hsize, -⟩
        exact ⟨hundefined, (mod_mod_eq_self_iff hwidth (by decide)).mp hsize⟩
      · rintro ⟨-, hsize⟩
        exact ⟨_, rfl, rfl, (mod_mod_eq_self_iff hwidth (by decide)).mpr hsize, rfl⟩
    · constructor
      · rintro ⟨_, ⟨rfl⟩, -, hsize, -⟩
        exact ⟨hundefined, hsize.symm⟩
      · rintro ⟨-, hsize⟩
        exact ⟨_, rfl, rfl, hsize.symm, rfl⟩

/-- The entries of the slots list the chunks exactly when these are storable. -/
theorem lists_infos_iff : a.Lists (a.infos a.chunks.length 0 0) ↔ a.AllStorable := by
  have hslots : a.infos a.chunks.length 0 0 = (range a.chunks.length).filterMap fun k =>
      a.info k k := by
    simp [infos]
  rw [hslots]
  constructor
  · rintro ⟨hlen, hall⟩ chunk hmem
    obtain ⟨i, hi⟩ := mem_iff_getElem?.mp hmem
    have hlt := lt_of_getElem? hi
    -- as many entries as slots: every slot has one
    have hsome := filterMap_length_eq_length.mp (hlen.trans length_range.symm)
    obtain ⟨info, hinfo⟩ := Option.isSome_iff_exists.mp (hsome i (mem_range.mpr hlt))
    refine (info_eq_iff hi).mp ⟨info, hinfo, hall i chunk info hi ?_⟩
    rw [getElem?_filterMap_range (fun k hk => hsome k (mem_range.mpr hk)) hlt, hinfo]
  · intro hstorable
    have hread : ∀ (i : ℕ) chunk, a.chunks[i]? = some chunk → _ := fun i chunk hi =>
      (info_eq_iff hi).mpr (hstorable chunk (mem_of_getElem? hi))
    have hsome : ∀ k < a.chunks.length, (a.info k k).isSome := by
      intro k hk
      obtain ⟨info, hinfo, -⟩ := hread k _ (getElem?_eq_getElem hk)
      rw [hinfo]
      rfl
    refine ⟨?_, fun i chunk info hi hinfo => ?_⟩
    · rw [filterMap_length_eq_length.mpr fun k hk => hsome k (mem_range.mp hk), length_range]
    · rw [getElem?_filterMap_range hsome (lt_of_getElem? hi)] at hinfo
      obtain ⟨info', hinfo', hfields⟩ := hread i chunk hi
      rwa [Option.some.inj (hinfo.symm.trans hinfo')]

/-! ### More than 36 chunks -/

/-- What is read from the slot of a chunk has the chunk's address, unless that is undefined. -/
theorem exists_info {i : ℕ} {chunk : WrittenChunk} (hi : a.chunks[i]? = some chunk)
    (hdefined : chunk.address ≠ 2 ^ 64 - 1) (j : ℕ) :
    ∃ info, a.info j i = some info ∧ info.address = chunk.address := by
  rw [info, hi, Option.bind_some, WrittenChunk.readBack, if_neg hdefined]
  split_ifs <;> exact ⟨_, rfl, rfl⟩

/-- With more than 36 chunks, some are lost: up to 52 chunks, those from number 36 on are not read;
of more chunks, number 52 is read in the place of number 36. -/
theorem not_readsBack (hn : a.chunks.length < 2 ^ 64) (hlt : 36 < a.chunks.length)
    (hstorable : a.AllStorable) (hdistinct : (a.chunks.map (·.address)).Nodup) :
    ¬ a.ReadsBack := by
  rintro ⟨header, infos, hparse, hread, hlen, hall⟩
  rw [parse_eq hn] at hparse
  obtain rfl := ok.inj hparse
  obtain ⟨rest, rfl, hrest⟩ := eq_append_of_read hread
  have hslot : ∀ i (hi : i < a.chunks.length) j,
      ∃ info, a.info j i = some info ∧ info.address = (a.chunks.get ⟨i, hi⟩).address :=
    fun i hi j => exists_info (getElem?_eq_getElem hi) (hstorable _ (get_mem _ _)).1 j
  have hfirst : (a.infos 36 0 0).length = 36 := by
    refine (filterMap_length_eq_length.mpr fun k hk => ?_).trans length_range
    have hk := mem_range.mp hk
    obtain ⟨info, hinfo, -⟩ := hslot (0 + k) (by omega) (0 + k)
    rw [hinfo]
    rfl
  rcases lt_or_ge 52 a.chunks.length with hmany | hfew
  · -- entry 36 is that of chunk 52
    obtain ⟨info, hinfo, haddress⟩ := hslot 52 hmany 36
    have hentry : (a.infos 36 0 0 ++ (a.infos 16 36 52 ++ rest))[36]? = some info := by
      rw [getElem?_append_right (by omega), hfirst, infos_succ, hinfo]
      rfl
    obtain ⟨haddress36, -⟩ := hall 36 _ info (getElem?_eq_getElem hlt) hentry
    have hsame : (a.chunks.map (·.address))[36]? = (a.chunks.map (·.address))[52]? := by
      rw [getElem?_map, getElem?_map, getElem?_eq_getElem hlt, getElem?_eq_getElem hmany]
      exact congrArg some (haddress36.symm.trans haddress)
    exact absurd ((getElem?_inj (by rwa [length_map]) hdistinct).mp hsame) (by decide)
  · -- there are only 36 entries
    rw [hrest hfew, infos_of_le hfew 16 36, append_nil, append_nil] at hlen
    omega

/-- `n` unfiltered chunks of one byte, chunk `i` at address `i`. -/
def numberedChunks (n : ℕ) : List WrittenChunk := (range n).map fun i => ⟨i, 1, 1, 0⟩

theorem length_numberedChunks (n : ℕ) : (numberedChunks n).length = n := by simp [numberedChunks]

theorem length_build_lt (n : ℕ) :
    (buildExtensibleArrayAt (numberedChunks n) 8 8 false 0).length < 2 ^ 64 := by
  obtain ⟨haddrs, hblocks⟩ := length_eaBlocks (numberedChunks n) false 0 dblkSizes
    (min eaIdxBlkElmts (numberedChunks n).length)
    (0 + aehdSize 8 8 + aeibSize (numberedChunks n) 8 false)
  have hbound : (dblkSizes.map fun size =>
      18 + size * elementSize (numberedChunks n) 8 false + 4).sum = 2052 := by
    show (dblkSizes.map fun size => 18 + size * 8 + 4).sum = 2052
    decide
  have hindex := length_aeibBody (numberedChunks n) false 0 haddrs
  have hsize : aeibSize (numberedChunks n) 8 false = 298 := rfl
  simp only [buildExtensibleArrayAt, length_append, length_aehdBody, length_checksum]
  omega

theorem numberedChunks_typed {n : ℕ} (hn : n < 2 ^ 64) :
    ∀ chunk ∈ numberedChunks n, chunk.Typed := by
  intro chunk hchunk
  obtain ⟨i, hi, rfl⟩ := List.mem_map.mp hchunk
  have := List.mem_range.mp hi
  exact ⟨by dsimp only; omega, Nat.pow_pos (by decide)⟩

/-- The array of these chunks, for a dataset of `n` elements of one byte. -/
def numberedArray (n : ℕ) (hn : n < 2 ^ 64) : WrittenArray where
  file := buildExtensibleArrayAt (numberedChunks n) 8 8 false 0
  base := 0
  chunks := numberedChunks n
  hasFilters := false
  datasetDims := [n]
  chunkDims := [1]
  elemSize := 1
  rank_eq := rfl
  chunkDims_ne_zero := by decide
  length_chunks := by simp [length_numberedChunks, chunkCounts]
  typed := numberedChunks_typed hn
  length_file := length_build_lt n
  standsAt := standsAt_self _

theorem numberedArray_allStorable (n : ℕ) (hn : n < 2 ^ 64) : (numberedArray n hn).AllStorable := by
  intro chunk hchunk
  obtain ⟨i, hi, rfl⟩ := mem_map.mp hchunk
  have := mem_range.mp hi
  exact ⟨by dsimp only; omega, rfl⟩

theorem numberedArray_nodup (n : ℕ) (hn : n < 2 ^ 64) :
    ((numberedArray n hn).chunks.map (·.address)).Nodup := by
  show ((numberedChunks n).map (·.address)).Nodup
  rw [numberedChunks, map_map]
  exact (map_id (range n)).symm ▸ nodup_range

theorem numberedArray_not_readsBack {n : ℕ} (hn : n < 2 ^ 64) (hlt : 36 < n) :
    ¬ (numberedArray n hn).ReadsBack := by
  have hlength : (numberedArray n hn).chunks.length = n := length_numberedChunks n
  exact not_readsBack (by rwa [hlength]) (by rwa [hlength]) (numberedArray_allStorable n hn)
    (numberedArray_nodup n hn)

end WrittenArray

open WrittenArray

/-- Arrays of `n` chunks are read back, as far as their chunks are storable, exactly when `n` is at
most 36; of more chunks, no array whose chunks are storable and at different addresses is. -/
theorem extensibleArray_readsBack_iff (n : ℕ) (hn : n < 2 ^ 64) :
    ((∀ a : WrittenArray, a.chunks.length = n → (a.ReadsBack ↔ a.AllStorable)) ↔ n ≤ 36) ∧
      ∀ a : WrittenArray, a.chunks.length = n → 36 < n → a.AllStorable →
        (a.chunks.map (·.address)).Nodup → ¬ a.ReadsBack := by
  refine ⟨⟨?_, ?_⟩, ?_⟩
  · intro h
    by_contra hlt
    have hback := h (numberedArray n hn) (length_numberedChunks n)
    exact numberedArray_not_readsBack hn (Nat.not_le.mp hlt)
      (hback.mpr (numberedArray_allStorable n hn))
  · rintro hle a rfl
    rw [← lists_infos_iff]
    constructor
    · rintro ⟨header, infos, hparse, hread, hlists⟩
      rw [parse_eq hn] at hparse
      obtain rfl := ok.inj hparse
      rw [read_eq_of_le hle] at hread
      rwa [ok.inj hread]
    · intro hlists
      exact ⟨_, _, parse_eq hn, read_eq_of_le hle, hlists⟩
  · rintro a rfl hlt hstorable hdistinct
    exact not_readsBack hn hlt hstorable hdistinct

/-- An array with the largest number of chunks that is read back. -/
theorem extensibleArray_readsBack_36 :
    (WrittenArray.numberedArray 36 (by decide)).AllStorable ∧
      (WrittenArray.numberedArray 36 (by decide)).ReadsBack := by
  have hstorable := numberedArray_allStorable 36 (by decide)
  refine ⟨hstorable, ?_⟩
  have hback := (extensibleArray_readsBack_iff 36 (by decide)).1.mpr (by decide)
  exact (hback _ (length_numberedChunks 36)).mpr hstorable

/-- An array of 37 storable chunks, of which the last is not read back. -/
theorem extensibleArray_not_readsBack_37 :
    (WrittenArray.numberedArray 37 (by decide)).AllStorable ∧
      ¬ (WrittenArray.numberedArray 37 (by decide)).ReadsBack :=
  ⟨numberedArray_allStorable 37 _,
    numberedArray_not_readsBack _ (by decide)⟩

end ClawHdf5.Format
