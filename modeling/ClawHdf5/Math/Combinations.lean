import Mathlib.Algebra.BigOperators.Group.List.Basic
import Mathlib.Data.List.GetD

/-!
# Counting through combinations

The combinations of one entry from each of several lists, in lexicographic order. A program finds
them with one counter for each list: the last counter moves on, and one that runs out starts over
and carries into the counter before it. Such an odometer is itself a counter, whose digits are the
positions of its axes.
-/

namespace ClawHdf5.Combinations

variable {α : Type*}

/-- The combinations of one entry of each list, the last list fastest. -/
def combinations : List (List α) → List (List α)
  | [] => [[]]
  | xs :: lists => xs.flatMap fun x => (combinations lists).map (x :: ·)

/-- A counter: the digit it starts with, and the digit after each. -/
structure Counter (α : Type*) where
  first : α
  next : α → Option α

namespace Counter

/-- The digits from `c` on, at most `fuel` of them. -/
def run (a : Counter α) : ℕ → α → List α
  | 0, _ => []
  | fuel + 1, c =>
    c :: match a.next c with
      | none => []
      | some c' => a.run fuel c'

/-- Put an axis before an odometer. The axis moves on when the odometer starts over. -/
def times (a : Counter α) (b : Counter (List α)) : Counter (List α) where
  first := a.first :: b.first
  next
    | [] => none
    | c :: cs =>
      match b.next cs with
      | some cs' => some (c :: cs')
      | none => (a.next c).map (· :: b.first)

/-- From `c` on, the digits are `xs`. -/
inductive Runs (a : Counter α) : α → List α → Prop
  | last {c : α} (h : a.next c = none) : Runs a c [c]
  | step {c c' : α} {xs : List α} (h : a.next c = some c') (hxs : Runs a c' xs) : Runs a c (c :: xs)

end Counter

open List

/-- An odometer with the given axes. -/
def odometer : List (Counter α) → Counter (List α)
  | [] => ⟨[], fun _ => none⟩
  | a :: axes => a.times (odometer axes)

/-! ### The combinations -/

section

variable {lists : List (List α)} {c : List α}

theorem length_combinations (lists : List (List α)) :
    (combinations lists).length = (lists.map length).prod := by
  induction lists with
  | nil => rfl
  | cons xs lists ih => simp [combinations, ih]

theorem mem_combinations : c ∈ combinations lists ↔ Forall₂ (fun xs x => x ∈ xs) lists c := by
  induction lists generalizing c with
  | nil => simp [combinations]
  | cons xs lists ih =>
    simp only [combinations, mem_flatMap, mem_map, ih, forall₂_cons_left_iff]
    constructor
    · rintro ⟨x, hx, rest, hrest, rfl⟩
      exact ⟨x, rest, hx, hrest, rfl⟩
    · rintro ⟨x, rest, hx, hrest, rfl⟩
      exact ⟨x, hx, rest, hrest, rfl⟩

/-- The combinations of ascending lists ascend, the first list counting most. -/
theorem pairwise_combinations [LT α] (h : ∀ xs ∈ lists, xs.Pairwise (· < ·)) :
    (combinations lists).Pairwise (· < ·) := by
  induction lists with
  | nil => exact pairwise_singleton _ _
  | cons xs lists ih =>
    obtain ⟨hxs, hlists⟩ := forall_mem_cons.mp h
    refine pairwise_flatMap.mpr ⟨fun x _ => ?_, hxs.imp fun hlt => ?_⟩
    · exact pairwise_map.mpr ((ih hlists).imp .cons)
    · simp only [forall_mem_map]
      exact fun _ _ _ _ => .rel hlt

end

/-! ### The runs of an odometer -/

section

variable {a : Counter α} {b : Counter (List α)} {c : α} {cs : List α} {xs : List α}
  {ys : List (List α)}

theorem Counter.Runs.run_eq (h : a.Runs c xs) {fuel : ℕ} (hfuel : xs.length ≤ fuel) :
    a.run fuel c = xs := by
  induction h generalizing fuel with
  | last hnext =>
    cases fuel with
    | zero => exact absurd hfuel (Nat.not_succ_le_zero _)
    | succ fuel => rw [run, hnext]
  | step hnext _ ih =>
    cases fuel with
    | zero => exact absurd hfuel (Nat.not_succ_le_zero _)
    | succ fuel =>
      rw [run, hnext]
      exact congrArg _ (ih (Nat.le_of_succ_le_succ hfuel))

/-- While the axis stays, the odometer runs to its end. -/
theorem Counter.Runs.times_row (h : b.Runs cs ys) :
    (a.next c = none → (a.times b).Runs (c :: cs) (ys.map (c :: ·))) ∧
      ∀ c' rest, a.next c = some c' → (a.times b).Runs (c' :: b.first) rest →
        (a.times b).Runs (c :: cs) (ys.map (c :: ·) ++ rest) := by
  induction h with
  | last hnext =>
    constructor
    · intro hlast
      exact .last (by simp only [times, hnext, hlast]; rfl)
    · intro c' rest hc' hrest
      exact .step (by simp only [times, hnext, hc']; rfl) hrest
  | @step cs cs' ys hnext _ ih =>
    have hstep : (a.times b).next (c :: cs) = some (c :: cs') := by simp only [times, hnext]
    constructor
    · intro hlast
      exact .step hstep (ih.1 hlast)
    · intro c' rest hc' hrest
      exact .step hstep (ih.2 c' rest hc' hrest)

theorem Counter.Runs.times (h : a.Runs c xs) (hb : b.Runs b.first ys) :
    (a.times b).Runs (c :: b.first) (xs.flatMap fun x => ys.map (x :: ·)) := by
  induction h with
  | last hnext =>
    rw [flatMap_singleton]
    exact hb.times_row.1 hnext
  | step hnext _ ih =>
    exact hb.times_row.2 _ _ hnext ih

/-- An odometer runs through the combinations of the digits of its axes. -/
theorem runs_odometer {axes : List (Counter α)} {lists : List (List α)}
    (h : Forall₂ (fun a xs => a.Runs a.first xs) axes lists) :
    (odometer axes).Runs (odometer axes).first (combinations lists) := by
  induction h with
  | nil => exact .last rfl
  | cons ha _ ih => exact ha.times ih

theorem runs_of_next {f : ℕ → α} {n : ℕ} (hnext : ∀ i < n, a.next (f i) = some (f (i + 1)))
    (hlast : a.next (f n) = none) : a.Runs (f 0) ((range (n + 1)).map f) := by
  induction n generalizing f with
  | zero => exact .last hlast
  | succ n ih =>
    rw [range_succ_eq_map, map_cons, map_map]
    refine .step (hnext 0 (Nat.succ_pos n)) (ih (f := fun i => f (i + 1)) ?_ hlast)
    exact fun i hi => hnext (i + 1) (Nat.succ_lt_succ hi)

end

end ClawHdf5.Combinations
