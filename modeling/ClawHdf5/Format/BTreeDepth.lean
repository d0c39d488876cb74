import ClawHdf5.Format.BTreeV2

/-!
# Version 2 B-trees of any depth

A child pointer has an address, the number of records of the child and, above the level of the
leaves, the number of all records below it. The format gives the two counts as many bytes as the
largest possible counts need, computed level by level. The reader estimates them above the leaves,
and cuts the first count to 16 bits. A tree is read back when the estimates need as many bytes and
no count is cut.
-/

namespace ClawHdf5.Format

open Bytes Fallible Overwrite List

/-- The sizes that determine the fields of a tree. -/
structure BTreeV2Sizes where
  nodeSize : ℕ
  recordSize : ℕ
  offsetSize : ℕ

/-- A child, with the records of the tree below it. -/
structure BTreeV2Child where
  address : ℕ
  numRecords : ℕ
  below : List Bytes

namespace BTreeV2Sizes

variable (s : BTreeV2Sizes)

/-! ### The sizing rule -/

def maxLeafNrec : ℕ := maxRecordsLeaf s.nodeSize s.recordSize

def nrecWidth : ℕ := bytesForMaxRecords s.maxLeafNrec

/-- The largest number of records of an inner node with pointers of `pointerSize` bytes. -/
def maxNrec (pointerSize : ℕ) : ℕ :=
  (s.nodeSize - 10 - pointerSize) / (s.recordSize + pointerSize)

/-- The bytes of a count of all records below a child, which a leaf does not have. -/
def widthOf (level maxTotal : ℕ) : ℕ := if level = 0 then 0 else bytesForMaxRecords maxTotal

/-- The largest number of records of a tree with a root of level `level`. -/
def maxTotal : ℕ → ℕ
  | 0 => s.maxLeafNrec
  | level + 1 =>
    let nrec := s.maxNrec (s.offsetSize + s.nrecWidth + widthOf level (maxTotal level))
    (nrec + 1) * maxTotal level + nrec

def totalWidth (level : ℕ) : ℕ := widthOf level (s.maxTotal level)

def pointerSize (level : ℕ) : ℕ := s.offsetSize + s.nrecWidth + s.totalWidth level

/-! ### Trees in a file -/

def pointer (level : ℕ) (c : BTreeV2Child) : Bytes :=
  leBytes s.offsetSize c.address ++ leBytes s.nrecWidth c.numRecords ++
    leBytes (s.totalWidth level) c.below.length

/-- An inner node above children of level `level`, without its checksum. -/
def btinBody (level treeType : ℕ) (records : List Bytes) (children : List BTreeV2Child) : Bytes :=
  utf8Bytes "BTIN" ++ leBytes 1 0 ++ leBytes 1 treeType ++ records.flatten ++
    children.flatMap (s.pointer level)

/-- The records of trees, with `records` between them. -/
def between : List (List Bytes) → List Bytes → List Bytes
  | [], _ => []
  | below :: rest, records => below ++ records.take 1 ++ between rest (records.drop 1)

/-- A tree stands in a file: the level, the address and the number of records of its root, and all
its records in order. Each node below the root has fewer than `limit` records. -/
def Stored (file : Bytes) (limit : ℕ) : ℕ → ℕ → ℕ → List Bytes → Prop
  | 0, address, numRecords, all =>
    all.length = numRecords ∧ numRecords ≤ s.maxLeafNrec ∧ (∀ r ∈ all, r.length = s.recordSize) ∧
      ∃ treeType, StandsAt file address (btlfBody treeType all ++ checksum (btlfBody treeType all))
  | level + 1, address, numRecords, all => ∃ treeType records children,
    records.length = numRecords ∧ numRecords ≤ s.maxNrec (s.pointerSize level) ∧
      (∀ r ∈ records, r.length = s.recordSize) ∧ length children = numRecords + 1 ∧
      (∀ c ∈ children, c.address < 256 ^ s.offsetSize ∧ c.numRecords < 256 ^ s.nrecWidth ∧
        c.numRecords < limit ∧ Stored file limit level c.address c.numRecords c.below) ∧
      StandsAt file address (s.btinBody level treeType records children ++
        checksum (s.btinBody level treeType records children)) ∧
      all = between (children.map (·.below)) records

/-- The widths that the reader takes for a tree are those of the format. -/
structure Agrees (depth : ℕ) : Prop where
  offsetSize : 0 < depth → s.offsetSize = 2 ∨ s.offsetSize = 4 ∨ s.offsetSize = 8
  nrecWidth : ∀ level < depth,
    bytesForMaxRecords (if level = 0 then s.maxLeafNrec else s.maxLeafNrec * 2) = s.nrecWidth
  totalWidth : ∀ level < depth,
    (if 0 < level then bytesForMaxRecords (headerMaxTotalRecords s.maxLeafNrec level) else 0) =
      s.totalWidth level

/-! ### Reading a tree back -/

variable {s} {file : Bytes} {pos level : ℕ}

theorem length_pointer (c : BTreeV2Child) : (s.pointer level c).length = s.pointerSize level := by
  simp [pointer, pointerSize, add_assoc]

theorem interleave_eq {visit : ℕ → ℕ → Run (List Bytes)} {record : ℕ → Run Bytes}
    {records : List Bytes} {children : List BTreeV2Child}
    (hvisit : ∀ c ∈ children, visit c.address c.numRecords = .ok c.below)
    (hrecord : ∀ i r, records[i]? = some r → record i = .ok r) (i : ℕ) :
    interleave visit record records.length i (children.map fun c => (c.address, c.numRecords)) =
      .ok (between (children.map (·.below)) (records.drop i)) := by
  induction children generalizing i with
  | nil => rfl
  | cons c children ih =>
    obtain ⟨hc, hchildren⟩ := forall_mem_cons.mp hvisit
    rw [map_cons, interleave, hc, ok_bind, map_cons, between, drop_drop]
    by_cases hi : i < records.length
    · rw [if_pos hi, hrecord i _ (getElem?_eq_getElem hi), ih hchildren, drop_eq_getElem_cons hi]
      rfl
    · rw [if_neg hi, ih hchildren, drop_eq_nil_of_le (not_lt.mp hi)]
      rfl

theorem readChild_of_standsAt (hfile : file.length < 2 ^ 63) {c : BTreeV2Child}
    (hoffset : s.offsetSize = 2 ∨ s.offsetSize = 4 ∨ s.offsetSize = 8)
    (haddress : c.address < 256 ^ s.offsetSize) (hcount : c.numRecords < 256 ^ s.nrecWidth)
    (hsmall : c.numRecords < 2 ^ 16) (h : StandsAt file pos (s.pointer level c)) (m : ℕ) :
    readChild ⟨file, s.recordSize, s.offsetSize, m⟩ s.nrecWidth pos =
      .ok (c.address, c.numRecords) := by
  have hle := h.le
  rw [length_pointer, pointerSize] at hle
  simp only [pointer, standsAt_append, length_leBytes] at h
  rw [readChild, readOffset_of_standsAt h.1.1 haddress hoffset (by omega), ok_bind,
    readField_of_standsAt h.1.2 (by omega), ok_bind, Nat.mod_eq_of_lt hcount,
    Nat.mod_eq_of_lt hsmall]

/-- A tree is read back from its root, level by level. -/
theorem visit_of_stored (hfile : file.length < 2 ^ 63) {depth : ℕ}
    (hdepth : depth ≤ maxBtreeV2Depth) (hagrees : s.Agrees depth) {level address numRecords : ℕ}
    (hlevel : level ≤ depth) {all : List Bytes}
    (h : s.Stored file (2 ^ 16) level address numRecords all) :
    (if level = 0 then parseLeafRecords file address numRecords s.recordSize
      else collectInternalRecords ⟨file, s.recordSize, s.offsetSize, s.maxLeafNrec⟩ level address
        numRecords) = .ok all := by
  -- the depth stays fixed, so that the widths agree at every level the induction reaches
  induction level generalizing address numRecords all with
  | zero =>
    obtain ⟨rfl, -, hrecords, treeType, hstands⟩ := h
    exact parseLeafRecords_of_standsAt hfile hrecords hstands
  | succ level ih =>
    obtain ⟨treeType, records, children, rfl, -, hrecords, hlen, hchildren, hstands, rfl⟩ := h
    have hsigLength : (utf8Bytes "BTIN").length = 4 := rfl
    have hpointers : (children.flatMap (s.pointer level)).length =
        (records.length + 1) * s.pointerSize level := by
      rw [length_slots length_pointer, hlen]
    obtain ⟨hbody, -⟩ := standsAt_append.mp hstands
    have hle := hbody.le
    simp only [btinBody, standsAt_append, length_append, length_leBytes, hsigLength,
      length_flatten_eq hrecords] at hbody hle
    obtain ⟨⟨⟨⟨hsig, -⟩, -⟩, hslots⟩, hptrs⟩ := hbody
    have hsigAt : slice file address (address + 4) = .ok (utf8Bytes "BTIN") :=
      slice_of_standsAt hsig
    rw [collectInternalRecords]
    dsimp only
    rw [reject_bind (by omega), ensureLen_bind (by omega) (by omega), hsigAt,
      ensureLen_bind (by omega) (by omega), hagrees.nrecWidth level hlevel,
      hagrees.totalWidth level hlevel, ← pointerSize, ensureLen_bind (by omega) (by omega)]
    have hread := mapM_slots _ (fun c _ => length_pointer c) hptrs fun c hc p hp =>
      readChild_of_standsAt hfile (hagrees.offsetSize (by omega)) (hchildren c hc).1
        (hchildren c hc).2.1 (hchildren c hc).2.2.1 hp s.maxLeafNrec
    rw [hlen, ← add_assoc] at hread
    rw [hread]
    -- the children are read back one level below, and the node's own records stand before them
    refine interleave_eq (fun c hc => ih (by omega) (hchildren c hc).2.2.2) (fun i r hr => ?_) 0
    rw [← flatMap_id] at hslots
    have hslot : StandsAt file (address + 6 + i * s.recordSize) (id r) :=
      hslots.slot_mem hrecords hr
    have hsize := hrecords r (mem_of_getElem? hr)
    have hend := hslot.le
    have hslice := slice_of_standsAt hslot
    rw [id_eq, hsize] at hend hslice
    rw [ensureLen_bind hend (by omega), hslice]

def ofHeader (header : BTreeV2Header) (offsetSize : ℕ) : BTreeV2Sizes :=
  ⟨header.nodeSize, header.recordSize, offsetSize⟩

theorem Stored.mono {limit limit' : ℕ} (hle : limit ≤ limit') {level address numRecords : ℕ}
    {all : List Bytes} (h : s.Stored file limit level address numRecords all) :
    s.Stored file limit' level address numRecords all := by
  induction level generalizing address numRecords all with
  | zero => exact h
  | succ level ih =>
    obtain ⟨treeType, records, children, hnum, hmax, hrecords, hlen, hchildren, h⟩ := h
    refine ⟨treeType, records, children, hnum, hmax, hrecords, hlen, fun c hc => ?_, h⟩
    obtain ⟨haddress, hcount, hlimit, hstored⟩ := hchildren c hc
    exact ⟨haddress, hcount, hlimit.trans_le hle, ih hstored⟩

/-- An inner node is read only through addresses of 2, 4 or 8 bytes. -/
theorem offsetSize_of_collectInternalRecords {ctx : BTreeV2Context} {depth offset numRecords : ℕ}
    {out : List Bytes} (h : collectInternalRecords ctx depth offset numRecords = .ok out) :
    ctx.offsetSize = 2 ∨ ctx.offsetSize = 4 ∨ ctx.offsetSize = 8 := by
  cases depth with
  | zero => cases h
  | succ depth =>
    simp only [collectInternalRecords, bind_ok_iff, mapM_eq_ok, range_succ_eq_map] at h
    obtain ⟨-, -, -, -, -, -, -, -, -, -, -, -, children, hchildren, -⟩ := h
    cases hchildren with
    | cons hfirst _ =>
      simp only [readChild, readOffset, bind_ok_iff] at hfirst
      obtain ⟨_, ⟨-, -, _, -, hsize⟩, -⟩ := hfirst
      by_contra hother
      rw [if_neg hother] at hsize
      cases hsize

/-- A tree of any depth is read back if it has no records, or if its root has one, the widths agree
and no count below the root is cut. If there are records, the root must have one and an inner root
addresses of a size that is read. -/
theorem collectBtreeV2Records_of_stored (hfile : file.length < 2 ^ 63) {header : BTreeV2Header}
    {offsetSize limit : ℕ} {all : List Bytes} (hdepth : header.depth ≤ maxBtreeV2Depth)
    (h : (ofHeader header offsetSize).Stored file limit header.depth header.rootNodeAddress
      header.numRecordsInRoot all) (htotal : header.totalRecords = all.length) :
    (all = [] ∨ header.numRecordsInRoot ≠ 0 ∧ (ofHeader header offsetSize).Agrees header.depth ∧
        limit ≤ 2 ^ 16 →
      collectBtreeV2Records file header offsetSize = .ok all) ∧
    (collectBtreeV2Records file header offsetSize = .ok all →
      all = [] ∨ header.numRecordsInRoot ≠ 0 ∧
        (0 < header.depth → offsetSize = 2 ∨ offsetSize = 4 ∨ offsetSize = 8)) := by
  rw [collectBtreeV2Records]
  by_cases hempty : header.totalRecords = 0 ∨ header.numRecordsInRoot = 0
  · rw [if_pos hempty]
    refine ⟨fun hcase => ?_, fun hnil => .inl (Except.ok.inj hnil).symm⟩
    rcases hcase with hnil | ⟨hroot, -⟩
    · rw [hnil]
    · rw [length_eq_zero_iff.mp (htotal.symm.trans (hempty.resolve_right hroot))]
  · rw [if_neg hempty]
    obtain ⟨hsome, hroot⟩ := not_or.mp hempty
    have hne : all ≠ [] := fun hnil => hsome (by rw [htotal, hnil, length_nil])
    refine ⟨fun hcase => ?_, fun hrun => .inr ⟨hroot, fun hpos => ?_⟩⟩
    · obtain ⟨-, hagrees, hlimit⟩ := hcase.resolve_left hne
      exact visit_of_stored hfile hdepth hagrees le_rfl (h.mono hlimit)
    · rw [if_neg hpos.ne'] at hrun
      exact offsetSize_of_collectInternalRecords hrun

/-! ### A tree of depth two -/

/-- Nodes of 140 bytes with up to 130 records, a number of one byte; twice as many need two. -/
def sampleSizes : BTreeV2Sizes := ⟨140, 1, 2⟩

def sampleLeaf (r : UInt8) : Bytes := btlfBody 0 [[r]] ++ checksum (btlfBody 0 [[r]])

def sampleNode (level : ℕ) (r : UInt8) (left right : BTreeV2Child) : Bytes :=
  let body := sampleSizes.btinBody level 0 [[r]] [left, right]
  body ++ checksum body

/-- Seven records in seven nodes. -/
def sampleFile : Bytes :=
  sampleNode 1 4 ⟨21, 1, [[1], [2], [3]]⟩ ⟨38, 1, [[5], [6], [7]]⟩ ++
    sampleNode 0 2 ⟨55, 1, [[1]]⟩ ⟨66, 1, [[3]]⟩ ++ sampleNode 0 6 ⟨77, 1, [[5]]⟩ ⟨88, 1, [[7]]⟩ ++
    sampleLeaf 1 ++ sampleLeaf 3 ++ sampleLeaf 5 ++ sampleLeaf 7

theorem stored_sampleNode {a b address : ℕ} {r : UInt8} {x y : List Bytes} (hlevel : level ≤ 1)
    (ha : a < 256 ^ sampleSizes.offsetSize) (hb : b < 256 ^ sampleSizes.offsetSize)
    (hx : sampleSizes.Stored file 2 level a 1 x) (hy : sampleSizes.Stored file 2 level b 1 y)
    (h : StandsAt file address (sampleNode level r ⟨a, 1, x⟩ ⟨b, 1, y⟩)) :
    sampleSizes.Stored file 2 (level + 1) address 1 (x ++ [r] :: y) := by
  have hnrec : 1 ≤ sampleSizes.maxNrec (sampleSizes.pointerSize level) := by
    rcases Nat.le_one_iff_eq_zero_or_eq_one.mp hlevel with rfl | rfl <;> decide
  refine ⟨0, [[r]], _, rfl, hnrec, by simp [sampleSizes], rfl, ?_, h, by simp [between]⟩
  simp only [forall_mem_cons]
  exact ⟨⟨ha, by decide, by decide, hx⟩, ⟨hb, by decide, by decide, hy⟩, by simp⟩

theorem stored_sampleFile : sampleSizes.Stored sampleFile 2 1 21 1 [[1], [2], [3]] ∧
      sampleSizes.Stored sampleFile 2 2 0 1 [[1], [2], [3], [4], [5], [6], [7]] := by
  have h := standsAt_self sampleFile
  nth_rewrite 2 [sampleFile] at h
  simp only [standsAt_append] at h
  obtain ⟨⟨⟨⟨⟨⟨htop, hleft⟩, hright⟩, h₁⟩, h₃⟩, h₅⟩, h₇⟩ := h
  have leaf {address r} (h : StandsAt sampleFile address (sampleLeaf r)) :
      sampleSizes.Stored sampleFile 2 0 address 1 [[r]] :=
    ⟨rfl, by decide, by simp [sampleSizes], 0, h⟩
  have hsub := stored_sampleNode (by decide) (by decide) (by decide) (leaf h₁) (leaf h₃) hleft
  refine ⟨hsub, stored_sampleNode le_rfl (by decide) (by decide) hsub ?_ htop⟩
  exact stored_sampleNode (by decide) (by decide) (by decide) (leaf h₅) (leaf h₇) hright

/-- The left half of the tree, with leaves below its root, is read back. -/
theorem collectBtreeV2Records_sampleFile :
    collectBtreeV2Records sampleFile ⟨0, 140, 1, 1, 21, 1, 3⟩ 2 = .ok [[1], [2], [3]] :=
  (@collectBtreeV2Records_of_stored _ (by decide +kernel) ⟨0, 140, 1, 1, 21, 1, 3⟩ 2 2 _ (by decide)
    stored_sampleFile.1 rfl).1 (.inr ⟨by decide, ⟨by decide, by decide, by decide⟩, by decide⟩)

/-- The whole tree is not. -/
theorem collectBtreeV2Records_misread :
    sampleSizes.Stored sampleFile 2 2 0 1 [[1], [2], [3], [4], [5], [6], [7]] ∧
      collectBtreeV2Records sampleFile ⟨0, 140, 1, 2, 0, 1, 7⟩ 2 ≠
        .ok [[1], [2], [3], [4], [5], [6], [7]] :=
  ⟨stored_sampleFile.2, by decide +kernel⟩

end BTreeV2Sizes

end ClawHdf5.Format
