import Mathlib.Data.Nat.Find
import Mathlib.Tactic.Common

/-!
# Blocks at a fixed distance

A row of `count` blocks of `width` numbers each, `step` apart. The blocks may overlap, and they
leave gaps when the step is larger than the width. A range meets the blocks when it meets their
extent and does not fall into a gap.
-/

namespace ClawHdf5.Strided

structure Blocks where
  first : ℕ
  step : ℕ
  count : ℕ
  width : ℕ
  deriving DecidableEq

namespace Blocks

variable (s : Blocks) (a b : ℕ)

/-- A number in one of the blocks. -/
def Mem (x : ℕ) : Prop :=
  ∃ i j, i < s.count ∧ j < s.width ∧ x = s.first + i * s.step + j

/-- The end of the last block, or the start if there is none. -/
def stop : ℕ :=
  if s.count = 0 then s.first else s.first + ((s.count - 1) * s.step + s.width)

/-- The range from `a` up to `b` meets the extent of the blocks. -/
def Touches : Prop := s.first < b ∧ a < s.stop

/-- The range from `a` up to `b` lies between one block and the next. -/
def InGap : Prop :=
  ∃ k < s.count, s.first + k * s.step + s.width ≤ a ∧ b ≤ s.first + (k + 1) * s.step

instance : Decidable (s.InGap a b) := inferInstanceAs (Decidable (∃ k < _, _))

variable {s a b}

theorem first_le_stop (s : Blocks) : s.first ≤ s.stop := by
  unfold stop
  split_ifs
  · exact le_rfl
  · exact Nat.le_add_right _ _

theorem Mem.first_le {x : ℕ} (h : s.Mem x) : s.first ≤ x := by
  obtain ⟨i, j, -, -, rfl⟩ := h
  omega

theorem Mem.lt_stop {x : ℕ} (h : s.Mem x) : x < s.stop := by
  obtain ⟨i, j, hi, hj, rfl⟩ := h
  have hmul : i * s.step ≤ (s.count - 1) * s.step := Nat.mul_le_mul_right _ (by omega)
  rw [stop, if_neg (by omega)]
  omega

theorem Mem.not_inGap {x : ℕ} (h : s.Mem x) (ha : a ≤ x) (hb : x < b) : ¬ s.InGap a b := by
  obtain ⟨i, j, -, hj, rfl⟩ := h
  intro hgap
  obtain ⟨k, -, hbehind, hbefore⟩ := hgap
  by_cases hik : i ≤ k
  · have hmul : i * s.step ≤ k * s.step := Nat.mul_le_mul_right _ hik
    omega
  · have hmul : (k + 1) * s.step ≤ i * s.step := Nat.mul_le_mul_right _ (by omega)
    omega

/-- A block that ends behind `a` and starts before `b` has a number in the range. -/
theorem exists_mem_of_block {i : ℕ} (hi : i < s.count) (hwidth : 0 < s.width) (hab : a < b)
    (hend : a < s.first + i * s.step + s.width) (hstart : s.first + i * s.step < b) :
    ∃ x, a ≤ x ∧ x < b ∧ s.Mem x :=
  ⟨max a (s.first + i * s.step), le_max_left _ _, max_lt hab hstart,
    i, max a (s.first + i * s.step) - (s.first + i * s.step), hi, by omega, by omega⟩

/-- A range holds a number of the row exactly when neither is empty, they meet in extent, and the
range is not in a gap. -/
theorem exists_mem_iff : (∃ x, a ≤ x ∧ x < b ∧ s.Mem x) ↔
    a < b ∧ 0 < s.count ∧ 0 < s.width ∧ s.Touches a b ∧ ¬ s.InGap a b := by
  constructor
  · intro h
    obtain ⟨x, ha, hb, hx⟩ := h
    have hfirst := hx.first_le
    have hstop := hx.lt_stop
    have hgap := hx.not_inGap ha hb
    obtain ⟨i, j, hi, hj, -⟩ := hx
    exact ⟨by omega, by omega, by omega, ⟨by omega, by omega⟩, hgap⟩
  · intro h
    obtain ⟨hab, hcount, hwidth, ⟨hfirst, hstop⟩, hgap⟩ := h
    rw [stop, if_neg (by omega), ← Nat.add_assoc] at hstop
    -- the first block that ends behind `a`
    have hex : ∃ i, a < s.first + i * s.step + s.width := ⟨s.count - 1, hstop⟩
    have hle : Nat.find hex ≤ s.count - 1 := Nat.find_min' hex hstop
    refine exists_mem_of_block (i := Nat.find hex) (by omega) hwidth hab (Nat.find_spec hex) ?_
    by_contra hlate
    cases hfind : Nat.find hex with
    | zero =>
      rw [hfind] at hlate
      omega
    | succ k =>
      have hmin := Nat.find_min hex (m := k) (by omega)
      rw [hfind] at hlate
      exact hgap ⟨k, by omega, Nat.le_of_not_lt hmin, Nat.le_of_not_lt hlate⟩

end Blocks

end ClawHdf5.Strided
