import ClawHdf5.Format.FractalHeap
import ClawHdf5.Math.Cells

/-!
# Version 2 B-trees

A B-tree holds records of one size. The header names the root node and counts its records, and a
node does not count its own records: each child is counted beside its address in the node above,
in as many bytes as the largest possible count needs. The records of a tree are collected in order,
with the records of an inner node between those of its children.

The writer builds trees of a single leaf, whatever the number of records is.
-/

namespace ClawHdf5.Format

open Bytes Fallible Cells MachineInt List

/-! ### Reading -/

structure BTreeV2Header where
  treeType : ℕ
  nodeSize : ℕ
  recordSize : ℕ
  depth : ℕ
  rootNodeAddress : ℕ
  numRecordsInRoot : ℕ
  totalRecords : ℕ
  deriving DecidableEq

def BTreeV2Header.parse (fileData : Bytes) (offset offsetSize lengthSize : ℕ) :
    Run BTreeV2Header := do
  ensureLen fileData offset 4
  let signature ← slice fileData offset (offset + 4)
  reject (signature ≠ utf8Bytes "BTHD") (.error .invalidBTreeV2Signature)
  ensureLen fileData offset 16
  let version ← byteAt fileData (offset + 4)
  reject (version ≠ 0) (.error (.invalidBTreeV2Version version))
  let treeType ← byteAt fileData (offset + 5)
  let nodeSize ← leAt fileData (offset + 6) 4
  let recordSize ← leAt fileData (offset + 10) 2
  let depth ← leAt fileData (offset + 12) 2
  let rootNodeAddress ← readOffset fileData (offset + 16) offsetSize
  let numRecordsInRoot ← readField fileData (offset + 16 + offsetSize) 2
  let totalRecords ← readOffset fileData (offset + 18 + offsetSize) lengthSize
  let pos := offset + 18 + offsetSize + lengthSize
  ensureLen fileData pos 4
  verifyChecksum fileData offset pos
  .ok ⟨treeType, nodeSize, recordSize, depth, rootNodeAddress, numRecordsInRoot, totalRecords⟩

def maxRecordsLeaf (nodeSize recordSize : ℕ) : ℕ :=
  if nodeSize ≤ 10 ∨ recordSize = 0 then 0 else (nodeSize - 10) / recordSize

/-- The number of bytes of a count that is at most `maxNrec`. -/
def bytesForMaxRecords (maxNrec : ℕ) : ℕ :=
  if maxNrec = 0 then 1 else (Nat.log2 maxNrec + 1 + 7) / 8

/-- The largest number of records below a node, as far as it is estimated. -/
def headerMaxTotalRecords (maxLeafNrec : ℕ) : ℕ → ℕ
  | 0 => maxLeafNrec
  | depth + 1 => min (headerMaxTotalRecords maxLeafNrec depth * max maxLeafNrec 2) (2 ^ 64 - 1)

/-- The records of a leaf. Its checksum is not checked when the file ends before it. -/
def parseLeafRecords (fileData : Bytes) (offset numRecords recordSize : ℕ) : Run (List Bytes) := do
  ensureLen fileData offset 6
  let signature ← slice fileData offset (offset + 4)
  reject (signature ≠ utf8Bytes "BTLF") (.error .invalidBTreeV2Signature)
  let pos := offset + 6
  let total := numRecords * recordSize
  ensureLen fileData pos total
  (if pos + total + 4 ≤ fileData.length then verifyChecksum fileData offset (pos + total)
    else .ok ())
  (range numRecords).mapM fun i =>
    slice fileData (pos + i * recordSize) (pos + i * recordSize + recordSize)

/-- What is read of a tree alike in all its nodes. -/
structure BTreeV2Context where
  fileData : Bytes
  recordSize : ℕ
  offsetSize : ℕ
  maxLeafNrec : ℕ

def maxBtreeV2Depth : ℕ := 64

/-- The address and the number of records of a child. -/
def readChild (ctx : BTreeV2Context) (nrecWidth pos : ℕ) : Run (ℕ × ℕ) := do
  let addr ← readOffset ctx.fileData pos ctx.offsetSize
  let childNrec ← readField ctx.fileData (pos + ctx.offsetSize) nrecWidth
  .ok (addr, childNrec % 2 ^ 16)

/-- The records of children, with those of the node between them. -/
def interleave (visit : ℕ → ℕ → Run (List Bytes)) (record : ℕ → Run Bytes) (numRecords : ℕ) :
    ℕ → List (ℕ × ℕ) → Run (List Bytes)
  | _, [] => .ok []
  | i, (childAddr, childNrec) :: children => do
    let below ← visit childAddr childNrec
    let own ← if i < numRecords then List.singleton <$> record i else .ok []
    let rest ← interleave visit record numRecords (i + 1) children
    .ok (below ++ own ++ rest)

def collectInternalRecords (ctx : BTreeV2Context) : ℕ → ℕ → ℕ → Run (List Bytes)
  | 0, _, _ => .error .panic
  | childDepth + 1, offset, numRecords => do
    reject (childDepth + 1 > maxBtreeV2Depth) (.error .nestingDepthExceeded)
    ensureLen ctx.fileData offset 6
    let signature ← slice ctx.fileData offset (offset + 4)
    reject (signature ≠ utf8Bytes "BTIN") (.error .invalidBTreeV2Signature)
    let recordsStart := offset + 6
    ensureLen ctx.fileData recordsStart (numRecords * ctx.recordSize)
    let pos := recordsStart + numRecords * ctx.recordSize
    let maxNrecChild := if childDepth = 0 then ctx.maxLeafNrec else ctx.maxLeafNrec * 2
    let nrecWidth := bytesForMaxRecords maxNrecChild
    let totalNrecWidth :=
      if 0 < childDepth then bytesForMaxRecords (headerMaxTotalRecords ctx.maxLeafNrec childDepth)
      else 0
    let childPtrSize := ctx.offsetSize + nrecWidth + totalNrecWidth
    ensureLen ctx.fileData pos ((numRecords + 1) * childPtrSize)
    let children ← (range (numRecords + 1)).mapM fun i =>
      readChild ctx nrecWidth (pos + i * childPtrSize)
    let visit := fun childAddr childNrec =>
      if childDepth = 0 then parseLeafRecords ctx.fileData childAddr childNrec ctx.recordSize
      else collectInternalRecords ctx childDepth childAddr childNrec
    let record := fun i => do
      let start := recordsStart + i * ctx.recordSize
      ensureLen ctx.fileData start ctx.recordSize
      slice ctx.fileData start (start + ctx.recordSize)
    interleave visit record numRecords 0 children

def collectBtreeV2Records (fileData : Bytes) (header : BTreeV2Header) (offsetSize : ℕ) :
    Run (List Bytes) :=
  if header.totalRecords = 0 ∨ header.numRecordsInRoot = 0 then .ok []
  else if header.depth = 0 then
    parseLeafRecords fileData header.rootNodeAddress header.numRecordsInRoot header.recordSize
  else
    collectInternalRecords ⟨fileData, header.recordSize, offsetSize,
      maxRecordsLeaf header.nodeSize header.recordSize⟩ header.depth header.rootNodeAddress
      header.numRecordsInRoot

/-! ### Writing -/

def bthdSize : ℕ := 4 + 1 + 1 + 4 + 2 + 2 + 1 + 1 + 8 + 2 + 8 + 4

def nodeSize (numRecords recordSize : ℕ) : ℕ :=
  max (nextPowerOfTwo (4 + 1 + 1 + numRecords * recordSize + 4)) 512 % 2 ^ 32

/-- The header of a tree of one leaf, without its checksum. -/
def bthdBody (treeType recordSize numRecords btlfAddr : ℕ) : Bytes :=
  utf8Bytes "BTHD" ++ leBytes 1 0 ++ leBytes 1 treeType ++
    leBytes 4 (nodeSize numRecords recordSize) ++ leBytes 2 recordSize ++ leBytes 2 0 ++
    leBytes 1 100 ++ leBytes 1 40 ++ leBytes 8 btlfAddr ++ leBytes 2 numRecords ++
    leBytes 8 numRecords

def bthd (treeType recordSize numRecords btlfAddr : ℕ) : Bytes :=
  bthdBody treeType recordSize numRecords btlfAddr ++
    checksum (bthdBody treeType recordSize numRecords btlfAddr)

/-- The records of a leaf, behind its signature. -/
def btlfBody (treeType : ℕ) (records : List Bytes) : Bytes :=
  utf8Bytes "BTLF" ++ leBytes 1 0 ++ leBytes 1 treeType ++ records.flatten

/-- The leaf, padded to its size. -/
def btlf (treeType recordSize : ℕ) (records : List Bytes) : Bytes :=
  resize (nodeSize records.length recordSize) 0
    (btlfBody treeType records ++ checksum (btlfBody treeType records))

/-! ### Reading back -/

section

variable {file : Bytes} {base treeType recordSize numRecords btlfAddr : ℕ} {records : List Bytes}

theorem length_bthdBody : (bthdBody treeType recordSize numRecords btlfAddr).length = 34 := by
  simp only [bthdBody, length_append]
  rfl

@[simp] theorem length_bthd : (bthd treeType recordSize numRecords btlfAddr).length = bthdSize := by
  rw [bthd, length_append, length_bthdBody]
  rfl

theorem nodeSize_lt (numRecords recordSize : ℕ) : nodeSize numRecords recordSize < 2 ^ 32 :=
  Nat.mod_lt _ (by decide)

/-- The header is read back, as far as its fields reach. -/
theorem parse_bthd (hfile : file.length < 2 ^ 63) (htype : treeType < 256)
    (h : StandsAt file base (bthd treeType recordSize numRecords btlfAddr)) :
    BTreeV2Header.parse file base 8 8 = .ok
      ⟨treeType, nodeSize numRecords recordSize, recordSize % 256 ^ 2, 0, btlfAddr % 256 ^ 8,
        numRecords % 256 ^ 2, numRecords % 256 ^ 8⟩ := by
  have hle := h.le
  rw [length_bthd, bthdSize] at hle
  have hsum := verifyChecksum_of_standsAt h
  rw [length_bthdBody] at hsum
  obtain ⟨hbody, -⟩ := standsAt_append.mp h
  have hsigLength : (utf8Bytes "BTHD").length = 4 := rfl
  simp only [bthdBody, standsAt_append, length_append, length_leBytes, hsigLength] at hbody
  obtain ⟨⟨⟨⟨⟨⟨⟨⟨⟨⟨hsig, hversion⟩, htreeType⟩, hnode⟩, hrecord⟩, hdepth⟩, -⟩, -⟩, hroot⟩, hcount⟩,
    htotal⟩ := hbody
  have hsigAt : slice file base (base + 4) = .ok (utf8Bytes "BTHD") := slice_of_standsAt hsig
  have hnodeSize : nodeSize numRecords recordSize < 256 ^ 4 := nodeSize_lt _ _
  simp only [BTreeV2Header.parse]
  rw [ensureLen_bind (by omega) (by omega), hsigAt, ok_bind,
    reject_bind (not_not.mpr rfl), ensureLen_bind (by omega) (by omega),
    byteAt_bind hversion (by decide), reject_bind (not_not.mpr rfl), byteAt_bind htreeType htype,
    leAt_of_standsAt hnode hnodeSize, ok_bind, leAt_of_standsAt_mod hrecord, ok_bind,
    leAt_of_standsAt hdepth (by decide), ok_bind,
    readOffset_of_standsAt_mod hroot (by decide) (by omega), ok_bind,
    readField_of_standsAt hcount (by omega), ok_bind,
    readOffset_of_standsAt_mod htotal (by decide) (by omega), ok_bind,
    ensureLen_bind (by omega) (by omega), hsum, ok_bind]

/-- Entries of one width are read back one after another. -/
theorem mapM_slots {α β : Type} {f : α → Bytes} {g : α → β} (read : ℕ → Run β) {xs : List α}
    {pos w : ℕ} (hf : ∀ x ∈ xs, (f x).length = w) (h : StandsAt file pos (xs.flatMap f))
    (hread : ∀ x ∈ xs, ∀ p, StandsAt file p (f x) → read p = .ok (g x)) :
    (range xs.length).mapM (fun i => read (pos + i * w)) = .ok (xs.map g) := by
  rw [mapM_eq_ok, forall₂_iff_get]
  refine ⟨by simp, fun i hi _ => ?_⟩
  have hlt : i < xs.length := by simpa using hi
  simp only [get_eq_getElem, getElem_range, getElem_map]
  exact hread _ (getElem_mem hlt) _ (h.slot_mem hf (getElem?_eq_getElem hlt))

theorem length_flatten_eq (h : ∀ r ∈ records, r.length = recordSize) :
    records.flatten.length = records.length * recordSize := by
  rw [length_flatten, map_congr_left h, map_const', sum_replicate_nat]

theorem length_btlfBody (h : ∀ r ∈ records, r.length = recordSize) :
    (btlfBody treeType records).length = 6 + records.length * recordSize := by
  have hsigLength : (utf8Bytes "BTLF").length = 4 := rfl
  simp only [btlfBody, length_append, length_leBytes, hsigLength, length_flatten_eq h]

theorem parseLeafRecords_of_standsAt (hfile : file.length < 2 ^ 63)
    (hrecords : ∀ r ∈ records, r.length = recordSize)
    (h : StandsAt file base (btlfBody treeType records ++ checksum (btlfBody treeType records))) :
    parseLeafRecords file base records.length recordSize = .ok records := by
  have hsigLength : (utf8Bytes "BTLF").length = 4 := rfl
  have hle := h.le
  rw [length_append, length_checksum, length_btlfBody hrecords] at hle
  have hsum := verifyChecksum_of_standsAt h
  rw [length_btlfBody hrecords, ← add_assoc] at hsum
  obtain ⟨hbody, -⟩ := standsAt_append.mp h
  simp only [btlfBody, standsAt_append, length_append, length_leBytes, hsigLength] at hbody
  obtain ⟨⟨⟨hsig, -⟩, -⟩, hslots⟩ := hbody
  have hsigAt : slice file base (base + 4) = .ok (utf8Bytes "BTLF") := slice_of_standsAt hsig
  rw [← flatMap_id] at hslots
  have hread := mapM_slots (g := id) (fun p => slice file p (p + recordSize)) hrecords hslots
    fun r hr p hp => hrecords r hr ▸ slice_of_standsAt hp
  rw [parseLeafRecords, ensureLen_bind (by omega) (by omega), hsigAt, ok_bind,
    reject_bind (not_not.mpr rfl)]
  rw [ensureLen_bind (by omega) (by omega), if_pos (by omega), hsum, ok_bind, hread, map_id]

theorem length_parseLeafRecords {offset : ℕ} {out : List Bytes}
    (h : parseLeafRecords file offset numRecords recordSize = .ok out) :
    out.length = numRecords := by
  simp only [parseLeafRecords, bind_ok_iff, mapM_eq_ok] at h
  obtain ⟨-, -, -, -, -, -, -, -, -, -, hall⟩ := h
  rw [← hall.length_eq, length_range]

theorem le_nodeSize (hcount : numRecords < 2 ^ 16) (hsize : recordSize ≤ 256) :
    4 + 1 + 1 + numRecords * recordSize + 4 ≤ nodeSize numRecords recordSize := by
  have hbytes : 4 + 1 + 1 + numRecords * recordSize + 4 ≤ 2 ^ 25 := by
    have : numRecords * recordSize ≤ 2 ^ 16 * 256 := Nat.mul_le_mul hcount.le hsize
    omega
  have hpow := nextPowerOfTwo_le hbytes
  have hle := le_nextPowerOfTwo (4 + 1 + 1 + numRecords * recordSize + 4)
  rw [nodeSize, Nat.mod_eq_of_lt (by omega)]
  exact hle.trans (le_max_left _ _)

/-- A tree of one leaf with fewer than `2 ^ 16` records is read back. -/
theorem collectBtreeV2Records_btlf (hfile : file.length < 2 ^ 63) (hsize : recordSize ≤ 256)
    (hcount : records.length < 2 ^ 16) (hrecords : ∀ r ∈ records, r.length = recordSize)
    (h : StandsAt file btlfAddr (btlf treeType recordSize records)) :
    collectBtreeV2Records file ⟨treeType, nodeSize records.length recordSize,
      recordSize % 256 ^ 2, 0, btlfAddr % 256 ^ 8, records.length % 256 ^ 2,
      records.length % 256 ^ 8⟩ 8 = .ok records := by
  rw [collectBtreeV2Records]
  have hsmall : records.length % 256 ^ 2 = records.length := Nat.mod_eq_of_lt hcount
  have hsmall' : records.length % 256 ^ 8 = records.length :=
    Nat.mod_eq_of_lt (hcount.trans (by decide))
  rw [hsmall, hsmall', Nat.mod_eq_of_lt (show recordSize < 256 ^ 2 by omega)]
  by_cases hnil : records.length = 0
  · rw [if_pos (.inl hnil), length_eq_zero_iff.mp hnil]
  · rw [if_neg (fun h0 => hnil (h0.elim id id))]
    have hroom := le_nodeSize hcount hsize
    have hlen : (btlfBody treeType records ++ checksum (btlfBody treeType records)).length ≤
        nodeSize records.length recordSize := by
      rw [length_append, length_checksum, length_btlfBody hrecords]
      omega
    rw [btlf, resize, take_of_length_le hlen, standsAt_append] at h
    have haddr : btlfAddr % 256 ^ 8 = btlfAddr := by
      have := h.1.le
      exact Nat.mod_eq_of_lt (by omega)
    rw [haddr]
    exact parseLeafRecords_of_standsAt hfile hrecords h.1

theorem length_of_collectBtreeV2Records {header : BTreeV2Header} {offsetSize : ℕ}
    {out : List Bytes} (hdepth : header.depth = 0)
    (h : collectBtreeV2Records file header offsetSize = .ok out) :
    out.length ≤ header.numRecordsInRoot := by
  rw [collectBtreeV2Records] at h
  split_ifs at h
  · rw [← Except.ok.inj h]
    exact zero_le
  · exact (length_parseLeafRecords h).le

end

end ClawHdf5.Format
