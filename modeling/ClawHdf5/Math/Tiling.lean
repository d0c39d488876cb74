import Mathlib.Algebra.Order.Floor.Div
import Mathlib.Tactic.Ring

/-!
# Rows cut into pieces

Rows of `n` cells stand behind each other, and each row is cut into pieces of `t` cells; the last
piece of a row may be shorter. The pieces are numbered through all rows, so that each of them starts
where the one before it ends.
-/

namespace ClawHdf5.Tiling

open Nat

/-- A row of `n` cells is cut into `m` pieces of `t` cells, the last one possibly shorter. -/
structure Cut (n t m : ℕ) : Prop where
  cells_pos : 0 < n
  piece_pos : 0 < t
  lt_iff : ∀ k, k < m ↔ k * t < n

/-- The cell at which piece `i` starts. -/
def boundary (n t m i : ℕ) : ℕ := i / m * n + i % m * t

namespace Cut

variable {n t m : ℕ} (h : Cut n t m)

include h

theorem pieces_pos : 0 < m := (h.lt_iff 0).mpr (by rw [zero_mul]; exact h.cells_pos)

theorem row_le : n ≤ m * t := not_lt.mp ((h.lt_iff m).not.mp (lt_irrefl m))

theorem start_lt (i : ℕ) : i % m * t < n := (h.lt_iff _).mp (mod_lt i h.pieces_pos)

/-- A piece ends after `t` cells, or with the row. -/
theorem boundary_succ (i : ℕ) :
    boundary n t m (i + 1) = boundary n t m i + min t (n - i % m * t) := by
  have hstart := h.start_lt i
  have hmod := mod_lt i h.pieces_pos
  have hdiv := div_add_mod i m
  unfold boundary
  by_cases hlast : i % m + 1 < m
  · -- the next piece is in the same row
    have hnext : (i + 1) / m = i / m ∧ (i + 1) % m = i % m + 1 := by
      rw [Nat.div_mod_unique h.pieces_pos]
      omega
    have hinside := (h.lt_iff _).mp hlast
    rw [succ_mul] at hinside
    rw [hnext.1, hnext.2, succ_mul]
    omega
  · have hnext : (i + 1) / m = i / m + 1 ∧ (i + 1) % m = 0 := by
      rw [Nat.div_mod_unique h.pieces_pos, mul_succ]
      omega
    have hend := h.row_le
    have hm : m = i % m + 1 := by omega
    rw [hm, succ_mul] at hend
    rw [hnext.1, hnext.2, succ_mul]
    omega

theorem boundary_lt_succ (i : ℕ) : boundary n t m i < boundary n t m (i + 1) := by
  have hstart := h.start_lt i
  have hpos := h.piece_pos
  rw [h.boundary_succ]
  omega

/-- The pieces of `a` rows end with the last of them. -/
theorem boundary_mul (a : ℕ) : boundary n t m (a * m) = a * n := by
  rw [boundary, Nat.mul_div_cancel _ h.pieces_pos, mul_mod_left, zero_mul, add_zero]

theorem boundary_mono : StrictMono (boundary n t m) := strictMono_nat_of_lt_succ h.boundary_lt_succ

end Cut

theorem boundary_zero (n t m : ℕ) : boundary n t m 0 = 0 := by
  rw [boundary, Nat.zero_div, zero_mod, zero_mul, Nat.zero_mul]

/-! ### The size of a piece -/

section

variable {r n p target : ℕ}

/-- A row that is cut into `p` pieces because it is longer than `p - 1` targets: a piece is longer
than half a target. -/
theorem lt_two_mul_piece (hp : 2 ≤ p) (hrow : (p - 1) * target < r * n) :
    target < 2 * (r * (n ⌈/⌉ p)) := by
  have hpos : 0 < p := by omega
  have hcover : n ≤ p * (n ⌈/⌉ p) := le_smul_ceilDiv hpos
  have hpieces : r * n ≤ p * (r * (n ⌈/⌉ p)) := by
    calc r * n ≤ r * (p * (n ⌈/⌉ p)) := mul_le_mul_left r hcover
      _ = p * (r * (n ⌈/⌉ p)) := by ac_rfl
  have hhalf : p * target ≤ 2 * ((p - 1) * target) := by
    rw [← mul_assoc]
    exact mul_le_mul_right target (by omega)
  by_contra hle
  have hmul := mul_le_mul_left p (not_lt.mp hle)
  have hassoc : p * (2 * (r * (n ⌈/⌉ p))) = 2 * (p * (r * (n ⌈/⌉ p))) := by ac_rfl
  omega

/-- A row of at most `p` targets, in cells of at most one target: a piece is shorter than two
targets. -/
theorem piece_lt_two_mul (hp : 0 < p) (htarget : 0 < target) (hcell : r ≤ target)
    (hrow : r * n ≤ p * target) : r * (n ⌈/⌉ p) < 2 * target := by
  -- rounding up adds less than one cell
  have hround : p * (n ⌈/⌉ p) + 1 ≤ n + p := by
    rw [ceilDiv_eq_add_pred_div]
    have := mul_div_le (n + p - 1) p
    omega
  have hpieces : p * (r * (n ⌈/⌉ p)) + r ≤ r * n + r * p := by
    calc p * (r * (n ⌈/⌉ p)) + r = r * (p * (n ⌈/⌉ p) + 1) := by ring
      _ ≤ r * (n + p) := mul_le_mul_left r hround
      _ = r * n + r * p := mul_add r n p
  have hcells : r * p ≤ p * target := by
    rw [mul_comm p]
    exact mul_le_mul_right p hcell
  by_contra hge
  have hmul := mul_le_mul_left p (not_lt.mp hge)
  have hassoc : p * (2 * target) = 2 * (p * target) := by ac_rfl
  have hzero : r = 0 := by omega
  rw [hzero] at hge
  omega

/-- A row longer than `target / √2` in cells of at most one target is cut into pieces between half a
target and two targets. -/
theorem piece_band (htarget : 0 < target) (hcell : r ≤ target)
    (hrow : target * target < 2 * (r * n) * (r * n)) :
    target ≤ 2 * (r * (n ⌈/⌉ max (r * n ⌈/⌉ target) 1)) ∧
      r * (n ⌈/⌉ max (r * n ⌈/⌉ target) 1) ≤ 2 * target := by
  rcases lt_or_ge target (r * n) with hlong | hshort
  · have hparts : ∀ k, k < r * n ⌈/⌉ target ↔ k * target < r * n := fun k => by
      rw [← not_le, ceilDiv_le_iff_le_mul htarget, not_le, mul_comm]
    have hp : 2 ≤ r * n ⌈/⌉ target := (hparts 1).mpr (by rwa [one_mul])
    rw [max_eq_left (by omega : 1 ≤ r * n ⌈/⌉ target)]
    refine ⟨(lt_two_mul_piece hp ((hparts _).mp (by omega))).le, ?_⟩
    refine (piece_lt_two_mul (by omega) htarget hcell ?_).le
    exact not_lt.mp ((hparts _).not.mp (lt_irrefl _))
  · have hpos : 0 < r * n := pos_of_ne_zero fun h0 => by
      rw [h0] at hrow
      omega
    have hp : max (r * n ⌈/⌉ target) 1 = 1 := by
      refine max_eq_right ((ceilDiv_le_iff_le_mul htarget).mpr ?_)
      rwa [mul_one]
    rw [hp, ceilDiv_one]
    by_contra hlt
    have hdouble : 2 * (r * n) ≤ target := by omega
    exact absurd hrow (not_lt.mpr (Nat.mul_le_mul hdouble hshort))

end

end ClawHdf5.Tiling
