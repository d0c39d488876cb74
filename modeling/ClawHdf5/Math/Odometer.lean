import ClawHdf5.Math.Combinations
import ClawHdf5.Math.MachineInt

/-!
# Sweeps of a box

A counter with one 64-bit digit per axis sweeps an inclusive box, last axis first. It is an
odometer whose axes run through the words between their bounds, so the sweep visits the positions
of the box in ascending order.
-/

namespace ClawHdf5.Odometer

open Combinations MachineInt List UInt64

/-- Inclusive bounds, one pair per axis. -/
abbrev Box := List (UInt64 × UInt64)

def low (box : Box) : List UInt64 := box.map Prod.fst

/-- A position inside the box. -/
def InBox (box : Box) (c : List UInt64) : Prop :=
  Forall₂ (fun b x => b.1 ≤ x ∧ x ≤ b.2) box c

/-- Advance the last axis; an axis that runs out is reset and carries into the axis before
it. `none` when the first axis runs out. -/
def advance : Box → List UInt64 → Option (List UInt64)
  | (_, hi) :: box, c :: cs =>
    match advance box cs with
    | some cs' => some (c :: cs')
    | none => if c + 1 ≤ hi then some ((c + 1) :: low box) else none
  | _, _ => none

/-- The positions visited from `c`, at most `fuel` of them. -/
def sweep (box : Box) : ℕ → List UInt64 → List (List UInt64)
  | 0, _ => []
  | fuel + 1, c =>
    c :: match advance box c with
      | none => []
      | some c' => sweep box fuel c'

/-- The number of positions in the box. -/
def volume (box : Box) : ℕ := (box.map fun b => b.2.toNat - b.1.toNat + 1).prod

variable {box : Box}

/-! ### The axes of a box -/

def axis (b : UInt64 × UInt64) : Counter UInt64 :=
  ⟨b.1, fun c => if c + 1 ≤ b.2 then some (c + 1) else none⟩

/-- The words from the low to the high bound. -/
def words (b : UInt64 × UInt64) : List UInt64 :=
  (range (b.2.toNat - b.1.toNat + 1)).map fun i => b.1 + UInt64.ofNat i

/-- The bounds of the axes are in order, and below the largest word. -/
def Bounded (box : Box) : Prop := ∀ b ∈ box, b.1 ≤ b.2 ∧ b.2 < maxU64

theorem first_odometer (box : Box) : (odometer (box.map axis)).first = low box := by
  induction box with
  | nil => rfl
  | cons b box ih => exact congrArg (b.1 :: ·) ih

theorem advance_eq (box : Box) (c : List UInt64) :
    advance box c = (odometer (box.map axis)).next c := by
  induction box generalizing c with
  | nil => cases c <;> rfl
  | cons b box ih =>
    cases c with
    | nil => rfl
    | cons x c =>
      simp only [advance, map_cons, odometer, Counter.times, ih, first_odometer, axis]
      cases (odometer (box.map axis)).next c with
      | some c' => rfl
      | none => split_ifs <;> rfl

theorem sweep_eq (box : Box) (fuel : ℕ) (c : List UInt64) :
    sweep box fuel c = (odometer (box.map axis)).run fuel c := by
  induction fuel generalizing c with
  | zero => rfl
  | succ fuel ih =>
    simp only [sweep, Counter.run, advance_eq, ih]
    cases (odometer (box.map axis)).next c <;> rfl

theorem toNat_words {b : UInt64 × UInt64} {i : ℕ} (hb : b.1 ≤ b.2 ∧ b.2 < maxU64)
    (hi : i ≤ b.2.toNat - b.1.toNat + 1) : (b.1 + ofNat i).toNat = b.1.toNat + i := by
  have hle := le_iff_toNat_le.mp hb.1
  have hmax := lt_iff_toNat_lt.mp hb.2
  rw [toNat_maxU64] at hmax
  have hi' : (ofNat i).toNat = i := toNat_ofNat_of_lt' (by rw [size]; omega)
  rw [toNat_add_of_lt (by rw [hi']; omega), hi']

theorem runs_axis {b : UInt64 × UInt64} (hb : b.1 ≤ b.2 ∧ b.2 < maxU64) :
    (axis b).Runs b.1 (words b) := by
  have hstep : ∀ i ≤ b.2.toNat - b.1.toNat, b.1 + ofNat i + 1 = b.1 + ofNat (i + 1) ∧
        (b.1 + ofNat (i + 1)).toNat = b.1.toNat + (i + 1) := by
    intro i hi
    refine ⟨?_, toNat_words hb (by omega)⟩
    rw [UInt64.add_assoc, ofNat_add]
    rfl
  have h := runs_of_next (a := axis b) (f := fun i => b.1 + ofNat i)
    (n := b.2.toNat - b.1.toNat) ?_ ?_
  · simpa [words] using h
  · intro i hi
    obtain ⟨heq, hval⟩ := hstep i (by omega)
    simp only [axis, heq, le_iff_toNat_le]
    exact if_pos (by omega)
  · obtain ⟨heq, hval⟩ := hstep _ (le_refl _)
    simp only [axis, heq, le_iff_toNat_le]
    exact if_neg (by omega)

theorem sweep_low (hbox : Bounded box) :
    sweep box (volume box) (low box) = combinations (box.map words) := by
  have hruns : (odometer (box.map axis)).Runs (low box) (combinations (box.map words)) := by
    rw [← first_odometer]
    apply runs_odometer
    rw [forall₂_map_left_iff, forall₂_map_right_iff, forall₂_same]
    exact fun b hb => runs_axis (hbox b hb)
  rw [sweep_eq]
  refine hruns.run_eq (le_of_eq ?_)
  rw [length_combinations, map_map, volume]
  exact congrArg _ (map_congr_left fun b _ => by simp [words])

/-! ### What a sweep visits -/

theorem mem_words {b : UInt64 × UInt64} (hb : b.1 ≤ b.2 ∧ b.2 < maxU64) {x : UInt64} :
    x ∈ words b ↔ b.1 ≤ x ∧ x ≤ b.2 := by
  have hle := le_iff_toNat_le.mp hb.1
  simp only [words, mem_map, mem_range, le_iff_toNat_le]
  constructor
  · rintro ⟨i, hi, rfl⟩
    rw [toNat_words hb (by omega)]
    omega
  · intro h
    refine ⟨x.toNat - b.1.toNat, by omega, UInt64.toNat_inj.mp ?_⟩
    rw [toNat_words hb (by omega)]
    omega

theorem mem_sweep (hbox : Bounded box) {d : List UInt64} :
    d ∈ sweep box (volume box) (low box) ↔ InBox box d := by
  rw [sweep_low hbox, mem_combinations, InBox]
  induction box generalizing d with
  | nil => simp
  | cons b box ih =>
    obtain ⟨hb, hbox⟩ := forall_mem_cons.mp hbox
    simp [forall₂_cons_left_iff, mem_words hb, ih hbox]

/-- A sweep visits its positions in ascending order. -/
theorem pairwise_sweep (hbox : Bounded box) :
    (sweep box (volume box) (low box)).Pairwise (· < ·) := by
  rw [sweep_low hbox]
  refine pairwise_combinations (forall_mem_map.mpr fun b hb => ?_)
  refine pairwise_map.mpr ((pairwise_lt_range).imp_of_mem fun hi hj hlt => ?_)
  rw [mem_range] at hi hj
  rw [lt_iff_toNat_lt, toNat_words (hbox b hb) hi.le, toNat_words (hbox b hb) hj.le]
  omega

end ClawHdf5.Odometer
