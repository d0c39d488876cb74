import ClawHdf5.Format.HeapWriter

/-!
# Reading objects back from a fractal heap

The blocks of the doubling table, counted row by row, are its slots. Packing fills the slots in
their order, so that the block in a slot has the size and the heap offset of the slot, and an
object lies in a block where its identifier says. The reader goes through the same slots by rows.

The table has thirty-six slots for direct blocks. Objects that find room in them, each in one
block, are read back.
-/

namespace ClawHdf5.Format

open Bytes Fallible Overwrite MachineInt List FractalHeapHeader Packing

variable {row slot : ℕ} {loc : ℕ × ℕ}

/-! ### The slots of the doubling table -/

def slotSize (slot : ℕ) : ℕ := blockSizeForRow startingBlockSize (slot / tableWidth)

def slotOffset : ℕ → ℕ
  | 0 => 0
  | slot + 1 => slotOffset slot + slotSize slot

def directSlots : ℕ := 36

/-- Objects of the given lengths find room, one after another, from a slot on of which `used` bytes
are taken. An object that does not fit behind the others goes into the next slot. -/
def FitsFrom (headerSize : ℕ) : ℕ → ℕ → List ℕ → Prop
  | _, _, [] => True
  | slot, used, len :: lens =>
    if headerSize + (used + len) ≤ slotSize slot then FitsFrom headerSize slot (used + len) lens
    else 0 < used ∧ slot + 1 < directSlots ∧ headerSize + len ≤ slotSize (slot + 1) ∧
      FitsFrom headerSize (slot + 1) len lens

/-- Objects of the given lengths find room in a heap: all in one block, or in the slots of the
table. -/
def HeapFits (headerSize : ℕ) (lens : List ℕ) : Prop :=
  headerSize + lens.sum ≤ maxDirectBlockSize ∨ FitsFrom headerSize 0 0 lens

theorem blockSizeForRow_le (h : row ≤ 8) :
    startingBlockSize ≤ blockSizeForRow startingBlockSize row ∧
      blockSizeForRow startingBlockSize row ≤ maxDirectBlockSize := by
  rw [blockSizeForRow]
  split_ifs with hrow
  · exact ⟨le_rfl, by decide⟩
  · have hpow : 2 ^ (row - 1) ≤ 2 ^ 7 := Nat.pow_le_pow_right two_pos (by omega)
    exact ⟨Nat.le_mul_of_pos_right _ (Nat.two_pow_pos _), Nat.mul_le_mul_left _ hpow⟩

theorem slotOffset_row {col : ℕ} (h : col ≤ tableWidth) : slotOffset (tableWidth * row + col) =
      slotOffset (tableWidth * row) + col * blockSizeForRow startingBlockSize row := by
  induction col with
  | zero => simp
  | succ col ih =>
    have hrow : (tableWidth * row + col) / tableWidth = row := by
      rw [Nat.mul_add_div (by decide), Nat.div_eq_of_lt h, add_zero]
    rw [← add_assoc, slotOffset, ih (Nat.le_of_succ_le h), slotSize, hrow, Nat.succ_mul, add_assoc]

theorem slotOffset_mono : Monotone slotOffset :=
  monotone_nat_of_le_succ fun _ => le_self_add

theorem startingBlockSize_le_slotSize (slot : ℕ) : startingBlockSize ≤ slotSize slot := by
  rw [slotSize, blockSizeForRow]
  split_ifs
  · exact le_rfl
  · exact Nat.le_mul_of_pos_right _ (Nat.two_pow_pos _)

/-! ### Packing -/

/-- A block is the one of a slot. -/
structure IsSlot (slot : ℕ) (b : Blk) : Prop where
  row : b.row = slot / tableWidth
  size : b.size = slotSize slot
  heapOffset : b.heapOffset = slotOffset slot

/-- The blocks are those of the first slots. -/
def InSlots (blocks : List Blk) : Prop := Forall₂ IsSlot (range blocks.length) blocks

section

variable {blocks : List Blk} {i : ℕ} {b : Blk}

theorem InSlots.isSlot (h : InSlots blocks) (hb : blocks[i]? = some b) : IsSlot i b :=
  (forall₂_iff_getElem?.mp h).2 i i b (getElem?_range (lt_of_getElem? hb)) hb

theorem InSlots.concat (h : InSlots blocks) (hb : IsSlot blocks.length b) :
    InSlots (blocks ++ [b]) := by
  rw [InSlots, length_append, length_singleton, range_succ]
  exact rel_append h (.cons hb .nil)

end

/-- The blocks have room for their data. -/
def Roomy (headerSize : ℕ) (blocks : List Blk) : Prop :=
  ∀ b ∈ blocks, headerSize + b.data.length ≤ b.size

/-- An object lies in a block, at the heap offset and with the length that are noted. -/
def Placed (headerSize : ℕ) (blocks : List Blk) (s : Bytes) (loc : ℕ × ℕ) : Prop :=
  ∃ b ∈ blocks, ∃ p, StandsAt b.data p s ∧ loc = (b.heapOffset + (headerSize + p), s.length)

def Packing.opened (st : Packing) : List Blk := st.blocks ++ [st.current]

/-- The objects packed so far lie in the slots up to `slot`, whose block holds `used` bytes. -/
structure Packed (headerSize slot used : ℕ) (objects : List Bytes) (st : Packing) : Prop where
  row : st.row = slot / tableWidth
  col : st.col = slot % tableWidth
  heapOff : st.heapOff = slotOffset slot
  finished : st.blocks.length = slot
  used_eq : st.current.data.length = used
  slots : InSlots st.blocks
  current : IsSlot slot st.current
  placed : Forall₂ (Placed headerSize st.opened) objects st.objLoc

section

variable {headerSize slot used : ℕ} {objects : List Bytes} {st : Packing} {s : Bytes}

/-- An object stays where it is when blocks grow and blocks are added. -/
theorem Placed.mono {blocks blocks' : List Blk}
    (hgrow : ∀ b ∈ blocks, ∃ b' ∈ blocks', b'.heapOffset = b.heapOffset ∧ ∃ rest, b'.data = b.data
      ++ rest)
    (h : Placed headerSize blocks s loc) : Placed headerSize blocks' s loc := by
  obtain ⟨b, hb, p, hs, hloc⟩ := h
  obtain ⟨b', hb', hoff, rest, hdata⟩ := hgrow b hb
  refine ⟨b', hb', p, ?_, by rw [hoff, hloc]⟩
  rw [hdata, ← zero_add p]
  exact (standsAt_append.mp (standsAt_self (b.data ++ rest))).1.trans hs

theorem packed_empty : Packed headerSize 0 0 [] ⟨[], [], 0, 0, 0, none⟩ :=
  ⟨rfl, rfl, rfl, rfl, rfl, .nil, ⟨rfl, rfl, rfl⟩, .nil⟩

namespace Packed

variable (h : Packed headerSize slot used objects st)
include h

theorem length_opened : st.opened.length = slot + 1 := by
  rw [← h.finished]
  exact length_append

theorem inSlots_opened : InSlots st.opened := h.slots.concat (h.finished ▸ h.current)

theorem row_getLast : st.opened.getLast?.elim 0 Blk.row = slot / tableWidth := by
  rw [opened, getLast?_concat, Option.elim_some, h.current.row]

/-- An object is put into the open block. -/
theorem put (s : Bytes) : Packed headerSize slot (used + s.length) (objects ++ [s])
      (st.put headerSize st.current s) := by
  refine ⟨h.row, h.col, h.heapOff, h.finished, ?_, h.slots,
    ⟨h.current.row, h.current.size, h.current.heapOffset⟩, ?_⟩
  · rw [← h.used_eq]
    exact length_append
  · have hlast : (st.put headerSize st.current s).current ∈
        (st.put headerSize st.current s).opened := mem_append_right _ mem_cons_self
    refine rel_append (h.placed.imp fun _ _ hloc => hloc.mono ?_) (.cons ?_ .nil)
    · exact ⟨_, hlast, st.current.data.length, ⟨st.current.data, [], (append_nil _).symm, rfl⟩,
        rfl⟩
    · -- the objects before stay: only the open block grows
      intro b hb
      rcases mem_append.mp hb with hb | hb
      · exact ⟨b, mem_append_left _ hb, rfl, [], (append_nil _).symm⟩
      · obtain rfl := mem_singleton.mp hb
        exact ⟨_, hlast, rfl, s, rfl⟩

theorem roomy_put (hroomy : Roomy headerSize st.blocks)
    (hfits : headerSize + (used + s.length) ≤ slotSize slot) :
    Roomy headerSize (st.put headerSize st.current s).opened := by
  refine forall_mem_append.mpr ⟨hroomy, forall_mem_singleton.mpr ?_⟩
  have hput := h.put s
  rwa [hput.used_eq, hput.current.size]

/-- The open block is finished and the next slot opened. -/
theorem finish : Packed headerSize (slot + 1) 0 objects (st.finish st.current) := by
  have hrow : (st.finish st.current).row = (slot + 1) / tableWidth := by
    simp only [Packing.finish, h.row, h.col, tableWidth]
    split_ifs <;> omega
  have hcol : (st.finish st.current).col = (slot + 1) % tableWidth := by
    simp only [Packing.finish, h.col, tableWidth]
    split_ifs <;> omega
  have hoff : (st.finish st.current).heapOff = slotOffset (slot + 1) := by
    simp [Packing.finish, h.heapOff, h.current.size, slotOffset]
  refine ⟨hrow, hcol, hoff, h.length_opened, rfl, h.inSlots_opened, ⟨hrow, ?_, hoff⟩, ?_⟩
  · rw [slotSize, ← hrow]
    rfl
  · exact h.placed.imp fun _ _ hloc => hloc.mono fun b hb =>
      ⟨b, mem_append_left _ hb, rfl, [], (append_nil _).symm⟩

/-- Where an object goes: behind the others, or into the next slot. -/
theorem place_eq (hheader : headerSize ≤ startingBlockSize) (s : Bytes) : st.place headerSize s =
      if 0 < used ∧ slotSize slot < headerSize + (used + s.length) then
        (st.finish st.current).put headerSize (st.finish st.current).current s
      else st.put headerSize st.current s := by
  have hcap : blockSizeForRow startingBlockSize st.current.row = slotSize slot := by
    rw [h.current.row, slotSize]
  have hsize := hheader.trans (startingBlockSize_le_slotSize slot)
  have hdata : st.current.data ≠ [] ↔ 0 < used := by
    rw [← h.used_eq, length_pos_iff]
  rw [place]
  rw [h.used_eq]
  exact if_congr (and_congr hdata (by omega)) rfl rfl

/-- All objects packed: a slot is opened only when the objects are more than the one before has
room for. -/
theorem foldl_place {ss : List Bytes} (hheader : headerSize ≤ startingBlockSize)
    (hused : used ≤ (objects.map length).sum)
    (hgrown : slot = 0 ∨ slotSize (slot - 1) < headerSize + (objects.map length).sum) :
    ∃ slot' used', Packed headerSize slot' used' (objects ++ ss) (ss.foldl (place headerSize) st) ∧
      (slot' = 0 ∨ slotSize (slot' - 1) < headerSize + ((objects ++ ss).map length).sum) := by
  induction ss generalizing slot used objects st with
  | nil => exact ⟨slot, used, by rwa [append_nil], by rwa [append_nil]⟩
  | cons s ss ih =>
    have hsum : ((objects ++ [s]).map length).sum = (objects.map length).sum + s.length := by simp
    rw [append_cons, foldl_cons, h.place_eq hheader]
    split_ifs with hnext
    · have hplaced := h.finish.put s
      exact ih hplaced (by omega) (.inr (by rw [Nat.add_sub_cancel]; omega))
    · exact ih (h.put s) (by omega) (hgrown.imp_right fun _ => by omega)

/-- Objects that find room are packed into blocks with room. -/
theorem roomy_foldl_place {ss : List Bytes} (hheader : headerSize ≤ startingBlockSize)
    (hslot : slot < directSlots) (hroomy : Roomy headerSize st.opened)
    (hfits : FitsFrom headerSize slot used (ss.map length)) :
    (ss.foldl (place headerSize) st).opened.length ≤ directSlots ∧
      Roomy headerSize (ss.foldl (place headerSize) st).opened := by
  induction ss generalizing slot used objects st with
  | nil =>
    refine ⟨?_, hroomy⟩
    rw [foldl_nil, h.length_opened]
    exact hslot
  | cons s ss ih =>
    rw [map_cons, FitsFrom] at hfits
    rw [foldl_cons, h.place_eq hheader]
    split_ifs at hfits with hroom
    · rw [if_neg (by omega)]
      exact ih (h.put s) hslot (h.roomy_put (forall_mem_append.mp hroomy).1 hroom) hfits
    · obtain ⟨hused, hslot', hlen, hrest⟩ := hfits
      rw [if_pos ⟨hused, by omega⟩]
      have hplaced := h.finish.put s
      rw [zero_add] at hplaced
      exact ih hplaced hslot' (h.finish.roomy_put hroomy (by omega)) hrest

end Packed

/-- A packing that has placed an object has an open block. -/
theorem allBlocks_eq_opened (hs : objects ≠ []) :
    (pack headerSize objects).allBlocks = (pack headerSize objects).opened := by
  obtain ⟨init, last, rfl⟩ := eq_nil_or_concat objects |>.resolve_left hs
  have hsome : ∀ st : Packing,
      (st.place headerSize last).cur = some (st.place headerSize last).current := by
    intro st
    rw [place]
    split_ifs <;> rfl
  rw [pack, concat_eq_append, foldl_append, foldl_cons, foldl_nil,
    allBlocks, opened, hsome, Option.toList_some]

theorem packed_pack (hheader : headerSize ≤ startingBlockSize) : ∃ slot used,
    Packed headerSize slot used objects (pack headerSize objects) ∧
      (slot = 0 ∨ slotSize (slot - 1) < headerSize + (objects.map length).sum) :=
  packed_empty.foldl_place hheader le_rfl (.inl rfl)

theorem roomy_pack (hheader : headerSize ≤ startingBlockSize)
    (hfits : FitsFrom headerSize 0 0 (objects.map length)) :
    (pack headerSize objects).opened.length ≤ directSlots ∧
      Roomy headerSize (pack headerSize objects).opened :=
  packed_empty.roomy_foldl_place hheader (by decide) (forall_mem_singleton.mpr hheader) hfits

end

/-! ### The reader's way through the slots -/

/-- A header that describes the writer's doubling table. -/
structure IsTable (header : FractalHeapHeader) : Prop where
  width : header.tableWidth = tableWidth
  starting : header.startingBlockSize = startingBlockSize
  maxDirect : header.maxDirectBlockSize = maxDirectBlockSize
  unfiltered : header.ioFilterEncodedLength = 0

theorem IsTable.blockSizeForRow_eq {header : FractalHeapHeader} (h : IsTable header)
    (hrow : row ≤ 8) : header.blockSizeForRow row = blockSizeForRow startingBlockSize row := by
  have hle := (blockSizeForRow_le hrow).2
  rw [blockSizeForRow] at hle ⊢
  rw [FractalHeapHeader.blockSizeForRow, h.starting]
  by_cases hfirst : row ≤ 1
  · rw [if_pos hfirst, if_pos hfirst]
  · rw [if_neg hfirst] at hle ⊢
    rw [if_neg hfirst]
    dsimp only
    rw [Nat.mod_eq_of_lt (by omega), if_pos (by omega), min_eq_left (hle.trans (by decide))]

theorem slotOffset_lt (h : slot ≤ directSlots) : slotOffset slot ≤ 2 ^ 19 :=
  (slotOffset_mono h).trans (by decide)

section

variable {header : FractalHeapHeader} {file : Bytes} {address : ℕ → ℕ}
  {descend : ℕ → ℕ → ℕ → Run Bytes} {row rows pos slot target length : ℕ}

/-- The reader finds the slot that covers a heap offset, from any row before it on. -/
theorem scanRows_find (ht : IsTable header) (hrows : row + rows ≤ 9)
    (hentry : ∀ j < tableWidth * (row + rows), readOffset file (pos + 8 * j) 8 = .ok (address j))
    (hlo : tableWidth * row ≤ slot) (hhi : slot < tableWidth * (row + rows))
    (haddress : isUndefinedAddr (address slot) 8 = false)
    (hle : slotOffset slot ≤ target) (hlt : target < slotOffset (slot + 1)) :
    header.scanRows file 8 target length descend (range' row rows)
        (pos + 8 * (tableWidth * row)) (slotOffset (tableWidth * row)) =
      readFromDirectBlock file (address slot) (slotOffset slot) target
        length := by
  induction rows generalizing row with
  | zero => exact absurd hhi (not_lt.mpr hlo)
  | succ rows ih =>
    have hsize := ht.blockSizeForRow_eq (show row ≤ 8 by omega)
    have hdirect := (blockSizeForRow_le (show row ≤ 8 by omega)).2
    have hbound : slotOffset (slot + 1) ≤ 2 ^ 19 := by
      refine slotOffset_lt ?_
      simp only [tableWidth, directSlots] at hhi ⊢
      omega
    have hnext := @slotOffset_row row tableWidth le_rfl
    have hentries : ∀ j < tableWidth, readOffset file (pos + 8 * (tableWidth * row) + 8 * j) 8 =
          .ok (address (tableWidth * row + j)) := by
      intro j hj
      rw [add_assoc, ← mul_add]
      refine hentry _ ?_
      simp only [tableWidth] at hj ⊢
      omega
    rw [range'_succ, scanRows]
    rw [hsize, ht.maxDirect, if_pos hdirect, ht.unfiltered, if_neg (lt_irrefl 0), ht.width]
    by_cases hrow : slot < tableWidth * row + tableWidth
    · -- the slot is one of this row
      obtain ⟨col, rfl⟩ := Nat.exists_eq_add_of_le hlo
      have hcol : col < tableWidth := by omega
      have hstart := @slotOffset_row row col hcol.le
      have hend := @slotOffset_row row (col + 1) hcol
      rw [← add_assoc] at hend
      rw [scanColumns_find hentries hcol haddress (by omega) (by omega) (by omega), hstart]
    · have hpast : slotOffset (tableWidth * row + tableWidth) ≤ slotOffset slot :=
        slotOffset_mono (not_lt.mp hrow)
      refine (scanColumns_skip (n := 0) hentries (by omega)
        (hlt.trans_le (hbound.trans (by decide)))).trans ?_
      rw [← hnext]
      refine ih (by omega) ?_ (by rw [Nat.mul_succ]; omega) ?_
      · rwa [add_right_comm]
      · rwa [add_right_comm]

end

/-! ### The layout of a heap of several blocks -/

/-- The blocks of a heap, as they are written. -/
def blockBytes (frhpAddr maxHeapSize : ℕ) (blocks : List Blk) : Bytes :=
  blocks.flatMap fun b => directBlock frhpAddr b.heapOffset maxHeapSize b.size b.data

section

variable {blocks : List Blk} {file : Bytes} {pos frhpAddr maxHeapSize entries slot : ℕ}
  {addrs : List ℕ} {b : Blk}

theorem sum_size_take (h : InSlots blocks) {i : ℕ} (hi : i ≤ blocks.length) :
    ((blocks.take i).map Blk.size).sum = slotOffset i := by
  induction i with
  | zero => rfl
  | succ i ih =>
    have hsize := (h.isSlot (getElem?_eq_getElem hi)).size
    rw [take_succ_eq_append_getElem hi, map_append, sum_append,
      ih (Nat.le_of_succ_le hi), slotOffset, ← hsize]
    simp

theorem getElem?_blkAddrs (a i : ℕ) :
    (blkAddrs a blocks)[i]? = blocks[i]?.map fun _ => a + ((blocks.take i).map Blk.size).sum := by
  induction blocks generalizing a i with
  | nil => rfl
  | cons b blocks ih =>
    cases i with
    | zero => rfl
    | succ i =>
      rw [blkAddrs, getElem?_cons_succ, getElem?_cons_succ, ih, take_succ_cons,
        map_cons, sum_cons, add_assoc]

theorem length_blkAddrs (a : ℕ) : (blkAddrs a blocks).length = blocks.length := by
  induction blocks generalizing a with
  | nil => rfl
  | cons b blocks ih => rw [blkAddrs, length_cons, ih, length_cons]

/-- The entries of an indirect block that are not used are written like addresses. -/
theorem fhibBody_eq (frhpAddr maxHeapSize entries : ℕ) (addrs : List ℕ) :
    fhibBody frhpAddr maxHeapSize entries addrs =
      (utf8Bytes "FHIB" ++ leBytes 1 0 ++ leBytes 8 frhpAddr ++
        replicate ((maxHeapSize + 7) / 8) 0) ++
      (addrs ++ replicate (entries - addrs.length) (2 ^ 64 - 1)).flatMap (leBytes 8) := by
  have hundef : undefOffset = leBytes 8 (2 ^ 64 - 1) := by decide
  rw [fhibBody, hundef, flatMap_append, append_assoc]
  congr 2
  exact flatMap_replicate.symm

theorem length_fhibBody (h : addrs.length ≤ entries) :
    (fhibBody frhpAddr maxHeapSize entries addrs).length =
      5 + 8 + (maxHeapSize + 7) / 8 + entries * 8 := by
  have hsigLength : (utf8Bytes "FHIB").length = 4 := rfl
  rw [fhibBody_eq, length_append, length_slots (fun n => length_leBytes 8 n)]
  simp only [length_append, length_replicate, length_leBytes]
  omega

/-- The entries of an indirect block are read back. -/
theorem readOffset_fhibBody (hfile : file.length < 2 ^ 63)
    (h : StandsAt file pos (fhibBody frhpAddr maxHeapSize entries addrs))
    (haddrs : addrs.length ≤ entries) (hlt : ∀ a ∈ addrs, a < 2 ^ 64) {j : ℕ} (hj : j < entries) :
    readOffset file (pos + (5 + 8 + (maxHeapSize + 7) / 8) + 8 * j) 8 =
      .ok (addrs.getD j (2 ^ 64 - 1)) := by
  have hend := h.le
  rw [length_fhibBody haddrs] at hend
  rw [fhibBody_eq, standsAt_append] at h
  simp only [length_append, length_replicate] at h
  have hentry : (addrs ++ replicate (entries - addrs.length) (2 ^ 64 - 1))[j]? =
      some (addrs.getD j (2 ^ 64 - 1)) := by
    by_cases hused : j < addrs.length
    · rw [getElem?_append_left hused, getD_eq_getElem _ _ hused, getElem?_eq_getElem hused]
    · rw [getElem?_append_right (by omega), getElem?_replicate, if_pos (by omega),
        getD_eq_default _ _ (by omega)]
  have hstands := h.2.slot (fun n => length_leBytes 8 n) hentry
  rw [mul_comm j] at hstands
  refine readOffset_of_standsAt hstands ?_ (by decide) (by omega)
  by_cases hused : j < addrs.length
  · rw [getD_eq_getElem _ _ hused]
    exact hlt _ (getElem_mem hused)
  · rw [getD_eq_default _ _ (by omega)]
    decide

theorem dblockHeaderSize_le (hmax : maxHeapSize ≤ 64) :
    dblockHeaderSize maxHeapSize ≤ startingBlockSize := by
  rw [dblockHeaderSize, startingBlockSize]
  omega

/-- A row that was reached in packing has a block size below the length of the objects. -/
theorem row_lt_of_slotSize {n : ℕ} (hn : n < 2 ^ 63)
    (hgrown : slot = 0 ∨ slotSize (slot - 1) < startingBlockSize + n) :
    slot / tableWidth + 1 < 2 ^ 16 := by
  rcases hgrown with rfl | hgrown
  · decide
  · by_contra hlarge
    have hrow : 64 ≤ (slot - 1) / tableWidth := by
      simp only [tableWidth] at hlarge ⊢
      omega
    have hpow : 2 ^ 63 ≤ 2 ^ ((slot - 1) / tableWidth - 1) :=
      Nat.pow_le_pow_right two_pos (by omega)
    rw [slotSize, blockSizeForRow, if_neg (by omega), startingBlockSize] at hgrown
    omega

section

variable (hmax : maxHeapSize ≤ 64) (hslots : InSlots blocks)
include hslots

theorem getElem?_blkAddrs_slot (first : ℕ) (hb : blocks[slot]? = some b) :
    (blkAddrs first blocks)[slot]? = some (first + slotOffset slot) := by
  rw [getElem?_blkAddrs, hb, Option.map_some,
    sum_size_take hslots (lt_of_getElem? hb).le]

include hmax

theorem length_blockBytes_take (hslot : slot ≤ blocks.length) :
    (blockBytes frhpAddr maxHeapSize (blocks.take slot)).length = slotOffset slot := by
  have hlen : ∀ b ∈ blocks.take slot,
      (directBlock frhpAddr b.heapOffset maxHeapSize b.size b.data).length = b.size := by
    intro b hb
    obtain ⟨i, hi⟩ := mem_iff_getElem?.mp (mem_of_mem_take hb)
    refine length_directBlock hmax ?_ _
    rw [(hslots.isSlot hi).size]
    exact (dblockHeaderSize_le hmax).trans (startingBlockSize_le_slotSize i)
  rw [blockBytes, length_flatMap, map_congr_left hlen, sum_size_take hslots hslot]

variable (h : StandsAt file pos (blockBytes frhpAddr maxHeapSize blocks))
include h

theorem standsAt_block (hb : blocks[slot]? = some b) : StandsAt file (pos + slotOffset slot)
    (directBlock frhpAddr b.heapOffset maxHeapSize b.size b.data) := by
  have hstands := h.trans (standsAt_flatMap hb)
  rwa [← blockBytes, length_blockBytes_take hmax hslots (lt_of_getElem? hb).le]
    at hstands

theorem lt_of_mem_blkAddrs (hfile : file.length < 2 ^ 63) {a : ℕ} (ha : a ∈ blkAddrs pos blocks) :
    a < 2 ^ 63 := by
  obtain ⟨i, hi⟩ := mem_iff_getElem?.mp ha
  have hlt := lt_of_getElem? hi
  rw [length_blkAddrs] at hlt
  have hb := getElem?_eq_getElem hlt
  have hle := (standsAt_block hmax hslots h hb).le
  obtain rfl := Option.some.inj (hi.symm.trans (getElem?_blkAddrs_slot hslots pos hb))
  omega

end

end

/-! ### Heaps -/

/-- What a heap is built from. -/
structure HeapInput where
  serialized : List Bytes
  base : ℕ
  maxHeapSize : ℕ
  heapIdLength : ℕ

namespace HeapInput

section

variable (i : HeapInput)

abbrev build : FractalHeapBlock :=
  buildSingleBlockFractalHeap i.serialized i.base i.maxHeapSize i.heapIdLength

abbrev multiblock : FractalHeapBlock :=
  buildMultiblockFractalHeap i.serialized i.base i.maxHeapSize i.heapIdLength

abbrev headerSize : ℕ := dblockHeaderSize i.maxHeapSize

abbrev blockSize : ℕ := max (nextPowerOfTwo (i.headerSize + (i.serialized.map length).sum)) 512

abbrev root : ℕ := i.base + frhpHeaderSize 8 8

abbrev idOf (loc : ℕ × ℕ) : Bytes := encodeManagedId loc.1 loc.2 i.maxHeapSize i.heapIdLength

/-- There are objects, and identifiers have room for the places in the largest table. -/
structure Sound : Prop where
  id : i.maxHeapSize + 16 = 8 * (i.heapIdLength - 1)
  lo : 20 ≤ i.maxHeapSize
  hi : i.maxHeapSize ≤ 48
  ne_nil : i.serialized ≠ []

/-- What holds of a heap whether or not the objects find room. -/
structure Built (heap : FractalHeapBlock) : Prop where
  frhpAddr : heap.frhpAddr = i.base
  heapIdLength : heap.heapIdLength = i.heapIdLength
  ids : ∃ locs : List (ℕ × ℕ), locs.length = i.serialized.length ∧ heap.heapIds = locs.map i.idOf
  header : ∃ p rest, heap.blob = writeFrhp p ++ rest ∧ p.maxHeapSize = i.maxHeapSize ∧
    p.heapIdLength = i.heapIdLength
  /-- The index lies right behind the heap. -/
  end_eq : i.base + heap.blob.length = heap.btreeAddr

/-- A header leads to the root block, and says how many rows it has. -/
structure Headed (header : FractalHeapHeader) (rows : ℕ) : Prop where
  maxHeapSize : header.maxHeapSize = i.maxHeapSize
  root : header.rootBlockAddress = i.root
  rows : header.currentRowsInRootIndirectBlock = rows

end

/-- A heap is read back: its header, and each object by its identifier. -/
def ReadsBack (file : Bytes) (heap : FractalHeapBlock) (serialized : List Bytes) : Prop :=
  ∃ header, FractalHeapHeader.parse file heap.frhpAddr 8 8 = .ok header ∧
    header.heapIdLength = heap.heapIdLength ∧
    Forall₂ (fun s id => header.readManagedObject file id 8 = .ok s) serialized heap.heapIds

theorem isUndefinedAddr_of_lt {addr : ℕ} (h : addr < 2 ^ 63) : isUndefinedAddr addr 8 = false := by
  rw [isUndefinedAddr, decide_eq_false_iff_not]
  omega

theorem slotSize_le (h : slot < directSlots) : slotSize slot ≤ maxDirectBlockSize := by
  refine (blockSizeForRow_le ?_).2
  simp only [directSlots, tableWidth] at h ⊢
  omega

theorem dblockHeaderSize_pos (maxHeapSize : ℕ) : 0 < dblockHeaderSize maxHeapSize := by
  rw [dblockHeaderSize]
  omega

/-- Objects that lie one behind another stand where they are noted. -/
theorem forall₂_objOffsets (pos : ℕ) (ss : List Bytes) :
    Forall₂ (fun s loc => ∃ p, StandsAt ss.flatten p s ∧ loc = (pos + p, s.length)) ss
      (objOffsets pos ss) := by
  induction ss generalizing pos with
  | nil => exact .nil
  | cons s ss ih =>
    refine .cons ⟨0, ?_, rfl⟩ ((ih (pos + s.length)).imp ?_)
    · exact (standsAt_append.mp (standsAt_self _)).1
    · rintro t loc ⟨p, ht, rfl⟩
      refine ⟨s.length + p, ?_, by rw [add_assoc]⟩
      have hrest := (standsAt_append.mp (standsAt_self (s ++ ss.flatten))).2
      rw [zero_add] at hrest
      exact hrest.trans ht

variable {i : HeapInput} {file : Bytes} {header : FractalHeapHeader} {blocks : List Blk} {s : Bytes}
  {frhpAddr first rows : ℕ} {heap : FractalHeapBlock}

theorem Built.length_heapIds (h : i.Built heap) : heap.heapIds.length = i.serialized.length := by
  obtain ⟨locs, hlocs, hids⟩ := h.ids
  rw [hids, length_map, hlocs]

section

variable (h : i.Sound)
include h

theorem Sound.headerSize_le : i.headerSize ≤ startingBlockSize :=
  dblockHeaderSize_le (h.hi.trans (by decide))

theorem Built.length_of_mem (hbuilt : i.Built heap) : ∀ id ∈ heap.heapIds,
    id.length = i.heapIdLength := by
  obtain ⟨locs, -, hids⟩ := hbuilt.ids
  have hid := h.id
  rw [hids]
  refine forall_mem_map.mpr fun loc _ => ?_
  rw [idOf, encodeManagedId]
  simp only [length_append, length_cons, length_leBytes, length_replicate]
  omega

/-- The header is read back whether or not the objects find room. -/
theorem Built.parse_header (hbuilt : i.Built heap) (hfile : file.length < 2 ^ 63)
    (hstands : StandsAt file i.base heap.blob) :
    ∃ header, parse file i.base 8 8 = .ok header ∧
      header.maxHeapSize = i.maxHeapSize ∧ header.heapIdLength = i.heapIdLength := by
  obtain ⟨p, rest, hblob, hsize, hlen⟩ := hbuilt.header
  have hid := h.id
  have hhi := h.hi
  rw [hblob, standsAt_append] at hstands
  refine ⟨_, parse_writeFrhp hfile p hstands.1, ?_, ?_⟩
  · exact hsize ▸ Nat.mod_eq_of_lt (by omega)
  · exact hlen ▸ Nat.mod_eq_of_lt (by omega)

theorem Sound.parse_eq (hfile : file.length < 2 ^ 63) {p : WriteFrhp}
    (hstands : StandsAt file i.base (writeFrhp p)) (hsize : p.maxHeapSize = i.maxHeapSize)
    (hlen : p.heapIdLength = i.heapIdLength) (hroot : p.rootAddr = i.root)
    (hlt : i.root < 2 ^ 63) (hrows : p.curRows < 2 ^ 16) :
    parse file i.base 8 8 = .ok p.header ∧
      p.header.heapIdLength = i.heapIdLength ∧ i.Headed p.header p.curRows := by
  have hid := h.id
  have hhi := h.hi
  refine ⟨parse_writeFrhp hfile p hstands, ?_, ?_, ?_, Nat.mod_eq_of_lt hrows⟩
  · exact hlen ▸ Nat.mod_eq_of_lt (by omega)
  · exact hsize ▸ Nat.mod_eq_of_lt (by omega)
  · exact hroot ▸ Nat.mod_eq_of_lt (by omega)

theorem Sound.built_multiblock (htotal : (i.serialized.map length).sum < 2 ^ 63) :
    i.Built i.multiblock := by
  have hheader := h.headerSize_le
  have hmax : i.maxHeapSize ≤ 64 := h.hi.trans (by decide)
  obtain ⟨slot, used, hpacked, hgrown⟩ := @packed_pack i.headerSize i.serialized hheader
  have hrows := row_lt_of_slotSize htotal (hgrown.imp_right fun _ => by omega)
  have hcount : (pack i.headerSize i.serialized).opened.length ≤
      (slot / tableWidth + 1) * tableWidth := by
    rw [hpacked.length_opened]
    simp only [tableWidth]
    omega
  have hheaderSize : frhpHeaderSize 8 8 = 146 := rfl
  rw [multiblock, buildMultiblockFractalHeap]
  refine ⟨rfl, rfl, ⟨_, hpacked.placed.length_eq.symm, rfl⟩,
    ⟨_, _, append_assoc _ _ _, rfl, rfl⟩, ?_⟩
  dsimp only
  rw [allBlocks_eq_opened h.ne_nil, hpacked.row_getLast, Nat.mod_eq_of_lt hrows, ← blockBytes]
  have hblocks := @length_blockBytes_take _ i.base _ _ hmax hpacked.inSlots_opened le_rfl
  have hsizes := sum_size_take hpacked.inSlots_opened le_rfl
  rw [take_length] at hblocks hsizes
  rw [length_append, length_append, length_append, length_writeFrhp,
    length_fhibBody (by rwa [length_blkAddrs]), length_checksum, hblocks, hsizes]
  omega

/-- What holds of every heap that is built. -/
theorem Sound.built (htotal : (i.serialized.map length).sum < 2 ^ 63) : i.Built i.build := by
  have hheaderSize : frhpHeaderSize 8 8 = 146 := rfl
  rw [build, buildSingleBlockFractalHeap]
  split_ifs with hblock
  · exact h.built_multiblock htotal
  · refine ⟨rfl, rfl, ⟨_, (forall₂_objOffsets _ _).length_eq.symm, rfl⟩, ⟨_, _, rfl, rfl, rfl⟩, ?_⟩
    dsimp only
    have hsize : i.headerSize ≤ i.blockSize := h.headerSize_le.trans (le_max_right _ _)
    rw [length_append, length_writeFrhp, length_directBlock (h.hi.trans (by decide)) hsize,
      hheaderSize, add_assoc]

/-- An object is looked for where its identifier says. -/
theorem Sound.readManagedObject_eq (hheaded : i.Headed header rows) (hroot : i.root < 2 ^ 63)
    (hoffset : loc.1 < 2 ^ 20) (hlen : loc.2 < 2 ^ 16) :
    header.readManagedObject file (i.idOf loc) 8 =
      if rows = 0 then readFromDirectBlock file i.root 0 loc.1 loc.2
      else header.readFromIndirectBlock file 8 loc.1 loc.2 64 i.root rows 0 := by
  have hpow : 2 ^ 20 ≤ 2 ^ i.maxHeapSize := Nat.pow_le_pow_right two_pos h.lo
  have hsize := hheaded.maxHeapSize
  have hdecode := @decodeManagedId_encode header loc.1 loc.2 i.heapIdLength (hsize ▸ h.id)
    (hsize ▸ h.hi) (by rw [hsize]; omega) hlen
  rw [hsize] at hdecode
  rw [readManagedObject, hdecode, ok_bind, hheaded.root, hheaded.rows]
  dsimp only
  rw [reject_bind (by rw [isUndefinedAddr_of_lt hroot]; decide)]

variable (hfile : file.length < 2 ^ 63)
include hfile

/-- An object in a block of the table is read back by its identifier. -/
theorem Sound.readManagedObject_slot (ht : IsTable header) (hheaded : i.Headed header rows)
    (hrows : 0 < rows ∧ rows ≤ 9) (hcount : blocks.length ≤ rows * tableWidth)
    (hslots : InSlots blocks) (hroomy : Roomy i.headerSize blocks)
    (hfhib : StandsAt file i.root (fhibBody frhpAddr i.maxHeapSize (rows * tableWidth) (blkAddrs
      first blocks)))
    (hblocks : StandsAt file first (blockBytes frhpAddr i.maxHeapSize blocks))
    (hplaced : Placed i.headerSize blocks s loc) (hne : s ≠ []) :
    header.readManagedObject file (i.idOf loc) 8 = .ok s := by
  obtain ⟨b, hmem, p, hs, rfl⟩ := hplaced
  obtain ⟨slot, hb⟩ := mem_iff_getElem?.mp hmem
  have hmax : i.maxHeapSize ≤ 64 := h.hi.trans (by decide)
  have hslot := lt_of_getElem? hb
  have hdirect : slot < directSlots := by
    simp only [tableWidth, directSlots] at hcount ⊢
    omega
  have hinside := hs.le
  have hpositive : 0 < s.length := length_pos_iff.mpr hne
  have hoffset := slotOffset_lt (show slot + 1 ≤ directSlots from hdirect)
  rw [slotOffset] at hoffset
  have hcap := slotSize_le hdirect
  rw [maxDirectBlockSize] at hcap
  -- where the blocks and the object are
  have hlt : ∀ a ∈ blkAddrs first blocks, a < 2 ^ 63 := fun a ha =>
    lt_of_mem_blkAddrs hmax hslots hblocks hfile ha
  have hget := getElem?_blkAddrs_slot hslots first hb
  have hslotAddr : (blkAddrs first blocks).getD slot (2 ^ 64 - 1) = first + slotOffset slot := by
    rw [getD_eq_getElem?_getD, hget, Option.getD_some]
  have hobject := (standsAt_block hmax hslots hblocks hb).trans
    (standsAt_directBlock hmax (hroomy b hmem) hs)
  have hroom := hroomy b hmem
  rw [(hslots.isSlot hb).size] at hroom
  rw [(hslots.isSlot hb).heapOffset]
  have hpos : 0 < i.headerSize := dblockHeaderSize_pos _
  -- the root block
  have hlen : (blkAddrs first blocks).length ≤ rows * tableWidth := by rwa [length_blkAddrs]
  have hfhibLength := hfhib.le
  rw [length_fhibBody hlen] at hfhibLength
  have hsig : slice file i.root (i.root + 4) = .ok (utf8Bytes "FHIB") := by
    rw [fhibBody_eq, append_assoc, append_assoc, append_assoc, standsAt_append]
      at hfhib
    exact slice_of_standsAt hfhib.1
  have hentry : ∀ j < tableWidth * (0 + rows), readOffset file
      (i.root + (5 + 8 + (i.maxHeapSize + 7) / 8) + 8 * j) 8 =
        .ok ((blkAddrs first blocks).getD j (2 ^ 64 - 1)) := by
    intro j hj
    rw [zero_add, mul_comm] at hj
    exact readOffset_fhibBody hfile hfhib hlen (fun a ha => (hlt a ha).trans (by decide)) hj
  rw [h.readManagedObject_eq hheaded (by omega) (by dsimp only; omega) (by dsimp only; omega),
    if_neg (by omega), readFromIndirectBlock, ensureLen_bind (by omega) (by omega), hsig, ok_bind]
  rw [hheaded.maxHeapSize, range_eq_range']
  refine (scanRows_find ht (by omega) hentry zero_le
    (by rw [zero_add, mul_comm]; omega) (isUndefinedAddr_of_lt ?_)
    le_self_add (by rw [slotOffset]; omega)).trans ?_
  · rw [hslotAddr]
    exact hlt _ (mem_of_getElem? hget)
  · rw [hslotAddr]
    refine readFromDirectBlock_of_standsAt (by omega) le_self_add ?_
    rwa [Nat.add_sub_cancel_left]

/-- Objects that find room in the slots of the table are read back. -/
theorem Sound.readsBack_multiblock (hne : ∀ s ∈ i.serialized, s ≠ [])
    (hfits : FitsFrom i.headerSize 0 0 (i.serialized.map length))
    (hstands : StandsAt file i.base i.multiblock.blob) :
    ReadsBack file i.multiblock i.serialized := by
  obtain ⟨slot, used, hpacked, -⟩ := @packed_pack i.headerSize i.serialized h.headerSize_le
  obtain ⟨hdirect, hroomy⟩ := roomy_pack h.headerSize_le hfits
  rw [hpacked.length_opened] at hdirect
  rw [ReadsBack]
  rw [multiblock, buildMultiblockFractalHeap] at hstands ⊢
  rw [allBlocks_eq_opened h.ne_nil] at hstands
  generalize pack i.headerSize i.serialized = packing at *
  have hsmall : slot / tableWidth + 1 ≤ 9 := by
    simp only [tableWidth, directSlots] at hdirect ⊢
    omega
  have hrows : (packing.opened.getLast?.elim 0 Blk.row + 1) % 2 ^ 16 = slot / tableWidth + 1 := by
    rw [hpacked.row_getLast, Nat.mod_eq_of_lt (hsmall.trans_lt (by decide))]
  rw [hrows] at hstands
  have hcount : packing.opened.length ≤ (slot / tableWidth + 1) * tableWidth := by
    rw [hpacked.length_opened]
    simp only [tableWidth]
    omega
  rw [standsAt_append, standsAt_append, standsAt_append] at hstands
  obtain ⟨⟨hfrhp, hfhib, -⟩, hblocks⟩ := hstands
  rw [length_writeFrhp] at hfhib
  rw [length_append, length_append, length_writeFrhp,
    length_fhibBody (by rwa [length_blkAddrs]), ← add_assoc] at hblocks
  have hroot : i.root < 2 ^ 63 := le_self_add.trans_lt (hfhib.le.trans_lt hfile)
  obtain ⟨hparse, hidLength, hheaded⟩ := h.parse_eq hfile hfrhp rfl rfl rfl hroot
    (hsmall.trans_lt (by decide))
  refine ⟨_, hparse, hidLength, ?_⟩
  rw [forall₂_map_right_iff]
  refine Forall₂.imp ?_ ((forall₂_and_left _ _).mpr ⟨hne, hpacked.placed⟩)
  intro s loc hloc
  exact h.readManagedObject_slot hfile ⟨rfl, rfl, rfl, rfl⟩ hheaded ⟨Nat.succ_pos _, hsmall⟩ hcount
    hpacked.inSlots_opened hroomy hfhib hblocks hloc.2 hloc.1

/-- Objects that fit one block are read back. -/
theorem Sound.readsBack_single (hfits : ¬ maxDirectBlockSize < i.blockSize)
    (hstands : StandsAt file i.base i.build.blob) : ReadsBack file i.build i.serialized := by
  have hroom : i.headerSize + i.serialized.flatten.length ≤ i.blockSize := by
    rw [length_flatten]
    exact (le_nextPowerOfTwo _).trans (le_max_left _ _)
  rw [build, buildSingleBlockFractalHeap] at hstands ⊢
  rw [if_neg hfits] at hstands ⊢
  dsimp only at hstands ⊢
  rw [standsAt_append, length_writeFrhp] at hstands
  obtain ⟨hfrhp, hblock⟩ := hstands
  have hroot : i.root < 2 ^ 63 := le_self_add.trans_lt (hblock.le.trans_lt hfile)
  obtain ⟨hparse, hidLength, hheaded⟩ := h.parse_eq hfile hfrhp rfl rfl rfl hroot
    (Nat.two_pow_pos 16)
  refine ⟨_, hparse, hidLength, ?_⟩
  rw [forall₂_map_right_iff]
  refine (forall₂_objOffsets i.headerSize i.serialized).imp ?_
  rintro s loc ⟨p, hs, rfl⟩
  have hinside := hs.le
  have hpos : 0 < i.headerSize := dblockHeaderSize_pos _
  have hobject := hblock.trans (standsAt_directBlock (h.hi.trans (by decide)) hroom hs)
  rw [maxDirectBlockSize] at hfits
  refine (h.readManagedObject_eq hheaded hroot ?_ ?_).trans ?_
  · dsimp only
    omega
  · dsimp only
    omega
  · rw [if_pos rfl]
    exact readFromDirectBlock_of_standsAt (by omega) zero_le (by rwa [Nat.sub_zero])

/-- **Objects that find room in a heap are read back**, by its header and their identifiers. -/
theorem Sound.readsBack (hne : ∀ s ∈ i.serialized, s ≠ [])
    (hfits : HeapFits i.headerSize (i.serialized.map length))
    (hstands : StandsAt file i.base i.build.blob) : ReadsBack file i.build i.serialized := by
  by_cases hblock : maxDirectBlockSize < i.blockSize
  · -- too much for one block
    have hsplit : i.build = i.multiblock := if_pos hblock
    rw [hsplit] at hstands ⊢
    refine h.readsBack_multiblock hfile hne (hfits.resolve_left fun hle => ?_) hstands
    have hpow : nextPowerOfTwo (i.headerSize + (i.serialized.map length).sum) ≤ 2 ^ 16 :=
      nextPowerOfTwo_le hle
    rw [maxDirectBlockSize, blockSize] at hblock
    omega
  · exact h.readsBack_single hfile hblock hstands

end

end HeapInput

end ClawHdf5.Format
