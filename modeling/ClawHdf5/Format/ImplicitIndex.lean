import Mathlib.Data.UInt
import ClawHdf5.Format.ChunkedRead
import ClawHdf5.Math.PanicFree

/-!
# Implicit chunk indexes

An implicit index stores nothing: the chunks of the grid stand one behind another, in row-major
order, from a base address on. Listing them checks every product it computes. The list itself is
allocated at once, and a grid with more chunks than a vector can hold ends in a panic.
-/

namespace ClawHdf5.Format

open Fallible RowMajor List

/-- What the chunks of an implicit index are listed from. -/
structure ImplicitIndex where
  baseAddress : UInt64
  datasetDims : List UInt64
  chunkDims : List UInt32
  elementSize : UInt32

namespace ImplicitIndex

variable (ix : ImplicitIndex)

def shape : List ℕ := ix.chunkDims.map UInt32.toNat

def counts : List ℕ := chunkCounts (ix.datasetDims.map UInt64.toNat) ix.shape

def chunkBytes : ℕ := ix.elementSize.toNat * ix.shape.prod

def chunk (g : List ℕ) : ChunkInfo :=
  ⟨ix.chunkBytes, 0, gridOffsets g ix.shape,
    ix.baseAddress.toNat + flat ix.counts g * ix.chunkBytes⟩

def list : Run (List ChunkInfo) :=
  generateImplicitChunks ix.baseAddress.toNat (ix.datasetDims.map UInt64.toNat) ix.shape
    ix.elementSize.toNat

/-- The grid is refused before its chunks are listed: a chunk dimension is zero or has no dimension
of the dataset, or the size of a chunk or a number of chunks does not fit its type. -/
def Uncounted : Prop :=
  ix.datasetDims.length < ix.chunkDims.length ∨ (0 ∈ ix.shape ∨ 2 ^ 64 ≤ ix.chunkBytes) ∨
    ∃ k, 2 ^ 64 ≤ (ix.counts.take k).prod

/-- An offset, the address or the size of a chunk does not fit its type. -/
def Unplaced (g : List ℕ) : Prop :=
  (∃ offset ∈ (ix.chunk g).offsets, 2 ^ 64 ≤ offset) ∨ 2 ^ 64 ≤ (ix.chunk g).address ∨
    2 ^ 32 ≤ (ix.chunk g).chunkSize

def Refused : Prop := ix.Uncounted ∨ ∃ g, InBounds ix.counts g ∧ ix.Unplaced g

/-- Every chunk of the grid is listed once, in row-major order, and their bytes follow one another
from the base address on. -/
structure Lists (chunks : List ChunkInfo) : Prop where
  length_eq : chunks.length = ix.counts.prod
  chunk_at : ∀ g, InBounds ix.counts g → chunks[flat ix.counts g]? = some (ix.chunk g)
  tiles : (chunks.flatMap fun c => range' c.address c.chunkSize) =
    range' ix.baseAddress.toNat (ix.counts.prod * ix.chunkBytes)

/-- An error is returned exactly if the grid is refused, and otherwise the chunks are listed. -/
def Exact : Prop :=
  ((∃ e, ix.list = fail e) ↔ ix.Refused) ∧
    (¬ix.Refused → ∃ chunks, ix.list = .ok chunks ∧ ix.Lists chunks)

end ImplicitIndex

/-! ### The products that are checked -/

theorem checked_implicitChunkBytes {chunkDims : List ℕ} {size : ℕ} (hsize : size < 2 ^ 64) :
    Checked (0 ∈ chunkDims ∨ 2 ^ 64 ≤ size * chunkDims.prod) (size * chunkDims.prod)
      (implicitChunkBytes chunkDims size) := by
  induction chunkDims generalizing size with
  | nil =>
    rw [prod_nil, mul_one]
    exact checked_ok (by simpa using hsize)
  | cons dim chunkDims ih =>
    rw [prod_cons, ← mul_assoc]
    refine (checked_reject_bind fun _ => checked_reject_bind fun hlt =>
      ih (Nat.lt_of_not_le hlt)).congr ?_
    rw [mem_cons, eq_comm, or_assoc]
    refine or_congr_right ⟨?_, .inr⟩
    -- without a zero, no later factor makes up for a product that is too large
    rintro (hle | hrest)
    · by_cases hzero : 0 ∈ chunkDims
      · exact .inl hzero
      · have hprod : chunkDims.prod ≠ 0 := fun h0 => by
          obtain ⟨n, hn, rfl⟩ := List.prod_eq_zero_iff_exists_zero_nat.mp h0
          exact hzero hn
        exact .inr (hle.trans (Nat.le_mul_of_pos_right _ (pos_of_ne_zero hprod)))
    · exact hrest

theorem checked_implicitTotal {counts : List ℕ} {total : ℕ} (htotal : total < 2 ^ 64) :
    Checked (∃ k, 2 ^ 64 ≤ total * (counts.take k).prod) (total * counts.prod)
      (implicitTotal counts total) := by
  induction counts generalizing total with
  | nil =>
    simp only [prod_nil, mul_one]
    exact checked_ok (by simpa using htotal)
  | cons count counts ih =>
    rw [prod_cons, ← mul_assoc]
    refine (checked_reject_bind fun hlt => ih (Nat.lt_of_not_le hlt)).congr ⟨?_, ?_⟩
    · rintro (hle | ⟨k, hk⟩)
      · exact ⟨1, by simpa using hle⟩
      · exact ⟨k + 1, by rwa [take_succ_cons, prod_cons, ← mul_assoc]⟩
    · rintro ⟨_ | k, hk⟩
      · rw [take_zero, prod_nil, mul_one] at hk
        exact absurd hk (not_le.mpr htotal)
      · rw [take_succ_cons, prod_cons, ← mul_assoc] at hk
        exact .inr ⟨k, hk⟩

namespace ImplicitIndex

variable (ix : ImplicitIndex)

theorem checked_implicitChunk {i : ℕ} (hi : i < ix.counts.prod) :
    Checked (ix.Unplaced (unflatten ix.counts i)) (ix.chunk (unflatten ix.counts i))
      (implicitChunk ix.baseAddress.toNat ix.chunkBytes ix.counts ix.shape i) := by
  have hdigits : (digits ix.counts i).1 = unflatten ix.counts i := by
    rw [digits_eq, Nat.mod_eq_of_lt hi]
  simp only [implicitChunk, Unplaced, chunk, hdigits, flat_unflatten hi]
  refine (checked_reject_bind fun _ => checked_reject_bind fun _ => checked_reject_bind fun _ =>
    checked_reject_ok).congr (or_congr_right ⟨?_, .inr⟩)
  rintro (hle | hrest)
  · exact .inl (hle.trans le_add_self)
  · exact hrest

/-- The chunks in the order of their numbers. -/
def chunks : List ChunkInfo :=
  (range ix.counts.prod).map fun i => ix.chunk (unflatten ix.counts i)

theorem lists_chunks : ix.Lists ix.chunks where
  length_eq := by rw [chunks, length_map, length_range]
  chunk_at g hg := by
    rw [chunks, getElem?_map, getElem?_range (flat_lt hg), Option.map_some, unflatten_flat hg]
  tiles := by
    have htiles (b w n : ℕ) : ((range n).flatMap fun i => range' (b + i * w) w) =
        range' b (n * w) := by
      induction n with
      | zero => simp
      | succ n ih => simp [range_succ, ih, Nat.succ_mul]
    rw [← htiles, chunks, flatMap_map]
    refine flatMap_congr fun i hi => ?_
    rw [chunk, flat_unflatten (mem_range.mp hi)]

/-- Some chunk cannot be placed, by its number and by its grid coordinates. -/
theorem exists_unplaced_iff : (∃ i ∈ range ix.counts.prod, ix.Unplaced (unflatten ix.counts i)) ↔
      ∃ g, InBounds ix.counts g ∧ ix.Unplaced g := by
  constructor
  · rintro ⟨i, hi, h⟩
    exact ⟨_, inBounds_unflatten (mem_range.mp hi), h⟩
  · rintro ⟨g, hg, h⟩
    exact ⟨flat ix.counts g, mem_range.mpr (flat_lt hg), by rwa [unflatten_flat hg]⟩

/-- The list of a grid whose sizes fit their types is allocated, and then filled. -/
theorem list_cases : (ix.Uncounted ∧ ∃ e, ix.list = fail e) ∨ (¬ix.Uncounted ∧ ix.list = (do
        reject (2 ^ 63 ≤ ix.counts.prod * chunkInfoSize) .panic
        (range ix.counts.prod).mapM
          (implicitChunk ix.baseAddress.toNat ix.chunkBytes ix.counts ix.shape))) := by
  have hsize : ix.elementSize.toNat < 2 ^ 64 := ix.elementSize.toNat_lt.trans (by decide)
  have htotal := @checked_implicitTotal ix.counts 1 (by decide)
  simp only [one_mul] at htotal
  have hshape : ix.shape.length = ix.chunkDims.length := length_map _
  rw [list, generateImplicitChunks, Uncounted]
  simp only [hshape, length_map]
  rw [← counts]
  by_cases hrank : ix.datasetDims.length < ix.chunkDims.length
  · exact .inl ⟨.inl hrank, _, reject_bind_of hrank _⟩
  rw [reject_bind hrank, or_iff_right hrank]
  rcases checked_implicitChunkBytes hsize with ⟨hbytes, e, he⟩ | ⟨hbytes, hok⟩
  · exact .inl ⟨.inl hbytes, e, by rw [he]; rfl⟩
  rw [hok]
  rcases htotal with ⟨hcount, e, he⟩ | ⟨hcount, hok⟩
  · exact .inl ⟨.inr hcount, e, by rw [he]; rfl⟩
  · exact .inr ⟨not_or.mpr ⟨hbytes, hcount⟩, by rw [hok]; rfl⟩

/-- **Implicit indexes are listed exactly** if their sizes or numbers are refused, or if there is
space for the list. -/
theorem exact_iff :
    ix.Exact ↔ ix.Uncounted ∨ ix.counts.prod * chunkInfoSize < 2 ^ 63 := by
  rcases ix.list_cases with ⟨hrefused, herror⟩ | ⟨hcounted, hlist⟩
  · exact iff_of_true ⟨iff_of_true herror (.inl hrefused), fun h => absurd (.inl hrefused) h⟩
      (.inl hrefused)
  · rw [or_iff_right hcounted]
    by_cases hspace : 2 ^ 63 ≤ ix.counts.prod * chunkInfoSize
    · rw [reject_bind_of hspace] at hlist
      refine iff_of_false (fun h => ?_) (not_lt.mpr hspace)
      -- a panic is neither an error nor a list
      by_cases hrefused : ix.Refused
      · obtain ⟨e, he⟩ := h.1.mpr hrefused
        cases hlist.symm.trans he
      · obtain ⟨chunks, hok, -⟩ := h.2 hrefused
        cases hlist.symm.trans hok
    · rw [reject_bind hspace] at hlist
      have hchecked : Checked ix.Refused ix.chunks ix.list := by
        rw [hlist, Refused, or_iff_right hcounted, ← ix.exists_unplaced_iff]
        exact Checked.mapM fun i hi => ix.checked_implicitChunk (mem_range.mp hi)
      exact iff_of_true ⟨hchecked.error_iff, fun h => ⟨_, hchecked.eq_ok h, ix.lists_chunks⟩⟩
        (Nat.lt_of_not_le hspace)

/-- Listing `2 ^ 60` chunks of one byte panics, though all their numbers fit their types. -/
theorem large_not_exact : ¬(⟨0, [2 ^ 60], [1], 1⟩ : ImplicitIndex).Exact := by
  intro h
  have hpanic : (⟨0, [2 ^ 60], [1], 1⟩ : ImplicitIndex).list = .error .panic := by decide +kernel
  by_cases hrefused : (⟨0, [2 ^ 60], [1], 1⟩ : ImplicitIndex).Refused
  · obtain ⟨e, he⟩ := h.1.mpr hrefused
    cases hpanic.symm.trans he
  · obtain ⟨chunks, hok, -⟩ := h.2 hrefused
    cases hpanic.symm.trans hok

end ImplicitIndex

end ClawHdf5.Format
