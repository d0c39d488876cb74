import ClawHdf5.Math.Fallible
import ClawHdf5.Math.MachineInt

/-!
# Selections

Which elements of a dataspace are accessed: everything, nothing, a regular hyperslab or a
list of points. Coordinates are 64-bit words and there is one vector entry per axis. The
vectors of a hyperslab and the points come from callers and need not agree in length; a read
past the end of one panics.
-/

namespace ClawHdf5

open Fallible MachineInt

/-- Slice access on words, as a case distinction. -/
theorem index_eq_ite {ε : Type} (l : List UInt64) (d : ℕ) : (index l d : Except (Halt ε) UInt64) =
      if d < l.length then .ok (l.getD d 0) else .error .panic := by
  split_ifs with hd
  · exact index_eq_ok.mpr (getElem?_eq_getD hd)
  · rw [index, List.getElem?_eq_none (not_lt.mp hd)]
    rfl

inductive Selection
  | all
  | none
  | hyperslab (start stride count block : List UInt64)
  | points (pts : List (List UInt64))
  deriving DecidableEq

namespace Selection

variable {ε : Type}

/-- The number of dimensions, where the selection has one of its own. -/
def rank : Selection → Option ℕ
  | .all => Option.none
  | .none => Option.none
  | .hyperslab start _ _ _ => some start.length
  | .points pts => pts.head?.map List.length

/-- Whether a chunk's range meets the extent of a hyperslab on axis `d`. The end of the
chunk is a wrapping sum, the end of the extent a saturating one. -/
def axisOverlaps (start stride count block chunkOffset chunkDims : List UInt64) (d : ℕ) :
    Except (Halt ε) Bool := do
  let chunkStart ← index chunkOffset d
  let chunkDim ← index chunkDims d
  let selStart ← index start d
  let n ← index count d
  let selEnd ←
    if n = 0 then .ok selStart
    else do
      let step ← index stride d
      let width ← index block d
      .ok (saturatingAdd selStart (saturatingAdd (saturatingMul (n - 1) step) width))
  .ok (!(decide (chunkStart + chunkDim ≤ selStart) || decide (chunkStart ≥ selEnd)))

def intersectsChunk (chunkOffset chunkDims : List UInt64) : Selection → Except (Halt ε) Bool
  | .all => .ok true
  | .none => .ok false
  | .hyperslab start stride count block =>
    every (axisOverlaps start stride count block chunkOffset chunkDims)
      (List.range start.length)
  | .points pts =>
    .ok (pts.any fun pt => (pt.zip (chunkOffset.zip chunkDims)).all fun (p, off, dim) =>
      decide (p ≥ off) && decide (p < off + dim))

/-- A selection all of whose coordinate vectors have `n` entries. -/
def HasRank (n : ℕ) : Selection → Prop
  | .all | .none => True
  | .hyperslab start stride count block =>
    start.length = n ∧ stride.length = n ∧ count.length = n ∧ block.length = n
  | .points pts => ∀ pt ∈ pts, pt.length = n

instance (n : ℕ) (sel : Selection) : Decidable (sel.HasRank n) := by
  cases sel <;> unfold HasRank <;> infer_instance

/-- The elements a selection means. On each axis a hyperslab takes `block` elements at each
of `count` places, `stride` apart, from `start` on. -/
def Selects : Selection → List UInt64 → Prop
  | .all, _ => True
  | .none, _ => False
  | .hyperslab start stride count block, e =>
    e.length = start.length ∧ ∀ d < e.length, ∃ i j,
      i < (count.getD d 0).toNat ∧ j < (block.getD d 0).toNat ∧
        (e.getD d 0).toNat = (start.getD d 0).toNat + i * (stride.getD d 0).toNat + j
  | .points pts, e => e ∈ pts

end Selection

end ClawHdf5
