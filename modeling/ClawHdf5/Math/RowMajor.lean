import Mathlib.Algebra.BigOperators.Group.List.Basic
import Mathlib.Algebra.Order.Ring.Nat

/-!
# Row-major positions

The cells of a grid of extents `dims` are numbered row by row, last axis fastest. A cell's
number is computed from its coordinates with one stride per axis, and its coordinates are the
mixed-radix digits of its number. Programs compute the digits in two ways: from the first axis
on, dividing by the strides, or from the last axis on, dividing by the extents.
-/

namespace ClawHdf5.RowMajor

open List Nat

/-- The number of cells between neighbours on each axis. -/
def strides : List ℕ → List ℕ
  | [] => []
  | _ :: dims => dims.prod :: strides dims

/-- The number of the cell with coordinates `c`. -/
def flat : List ℕ → List ℕ → ℕ
  | _ :: dims, c :: cs => c * dims.prod + flat dims cs
  | _, _ => 0

/-- The coordinates of cell `k`. -/
def unflatten : List ℕ → ℕ → List ℕ
  | [], _ => []
  | _ :: dims, k => k / dims.prod :: unflatten dims (k % dims.prod)

/-- The coordinates of a cell of the grid. -/
def InBounds (dims c : List ℕ) : Prop := Forall₂ (· < ·) c dims
  deriving Decidable

/-- The coordinates of a cell of a block that starts at `origin`. -/
def shift (origin c : List ℕ) : List ℕ := zipWith (· + ·) origin c

/-- The digits of `k` and what is left, from the last axis on. -/
def digits : List ℕ → ℕ → List ℕ × ℕ
  | [], k => ([], k)
  | n :: dims, k =>
    let (cs, rest) := digits dims k
    (rest % n :: cs, rest / n)

variable {dims dims' c c' : List ℕ} {k n : ℕ}

@[simp] theorem length_strides (dims : List ℕ) : (strides dims).length = dims.length := by
  induction dims with
  | nil => rfl
  | cons n dims ih => simp [strides, ih]

@[simp] theorem length_unflatten (dims : List ℕ) (k : ℕ) :
    (unflatten dims k).length = dims.length := by
  induction dims generalizing k with
  | nil => rfl
  | cons n dims ih => simp [unflatten, ih]

theorem InBounds.length_eq (h : InBounds dims c) : c.length = dims.length :=
  Forall₂.length_eq h

@[simp] theorem inBounds_nil : InBounds [] [] := .nil

@[simp] theorem inBounds_cons {x : ℕ} :
    InBounds (n :: dims) (x :: c) ↔ x < n ∧ InBounds dims c := forall₂_cons

theorem flat_lt (h : InBounds dims c) : flat dims c < dims.prod := by
  induction h with
  | nil => simp [flat]
  | @cons x n c dims hx _ ih =>
    have hrow : (x + 1) * dims.prod ≤ n * dims.prod := mul_le_mul_right _ hx
    rw [succ_mul] at hrow
    rw [flat, prod_cons]
    omega

theorem pos_of_lt_prod (hk : k < dims.prod) (hn : n ∈ dims) : 0 < n := by
  refine pos_of_ne_zero fun h0 => ?_
  have hzero : dims.prod = 0 := List.prod_eq_zero_iff_exists_zero_nat.mpr ⟨n, hn, h0⟩
  omega

theorem inBounds_unflatten (hk : k < dims.prod) : InBounds dims (unflatten dims k) := by
  induction dims generalizing k with
  | nil => exact .nil
  | cons n dims ih =>
    have hpos : 0 < dims.prod := Nat.pos_of_mul_pos_left (zero_lt_of_lt hk)
    refine .cons ?_ (ih (mod_lt _ hpos))
    exact Nat.div_lt_of_lt_mul (mul_comm n _ ▸ hk)

theorem flat_unflatten (hk : k < dims.prod) : flat dims (unflatten dims k) = k := by
  induction dims generalizing k with
  | nil => simpa [flat, eq_comm] using hk
  | cons n dims ih =>
    have hpos : 0 < dims.prod := Nat.pos_of_mul_pos_left (zero_lt_of_lt hk)
    rw [unflatten, flat, ih (mod_lt _ hpos), div_add_mod']

theorem unflatten_flat (h : InBounds dims c) : unflatten dims (flat dims c) = c := by
  induction h with
  | nil => rfl
  | @cons x n c dims _ hc ih =>
    have hlt := flat_lt hc
    rw [flat, unflatten, mul_comm, mul_add_div (zero_lt_of_lt hlt),
      div_eq_of_lt hlt, add_zero, mul_add_mod, mod_eq_of_lt hlt, ih]

theorem unflatten_zero (dims : List ℕ) : unflatten dims 0 = replicate dims.length 0 := by
  induction dims with
  | nil => rfl
  | cons n dims ih => rw [unflatten, Nat.zero_div, zero_mod, ih, length_cons, replicate_succ]

theorem flat_injective (h : InBounds dims c) (h' : InBounds dims c')
    (heq : flat dims c = flat dims c') : c = c' := by
  rw [← unflatten_flat h, heq, unflatten_flat h']

/-- The digits computed from the last axis on are the coordinates of the cell. -/
theorem digits_eq (dims : List ℕ) (k : ℕ) :
    digits dims k = (unflatten dims (k % dims.prod), k / dims.prod) := by
  induction dims generalizing k with
  | nil => simp [digits, unflatten]
  | cons n dims ih =>
    simp only [digits, ih, unflatten, prod_cons, Prod.mk.injEq, cons.injEq]
    refine ⟨⟨?_, ?_⟩, ?_⟩
    · rw [mul_comm, mod_mul_right_div_self]
    · rw [mul_comm, mod_mul_right_mod]
    · rw [Nat.div_div_eq_div_mul, mul_comm]

/-- The number of a cell of a product of grids. -/
theorem flat_append (h : c.length = dims.length) :
    flat (dims ++ dims') (c ++ c') = flat dims c * dims'.prod + flat dims' c' := by
  induction dims generalizing c with
  | nil =>
    obtain rfl := length_eq_zero_iff.mp h
    simp [flat]
  | cons n dims ih =>
    cases c with
    | nil => simp at h
    | cons x c =>
      simp only [cons_append, flat, ih (succ_injective h), prod_append]
      rw [add_mul, mul_assoc, add_assoc]

theorem flat_append_singleton (h : c.length = dims.length) (x : ℕ) :
    flat (dims ++ [n]) (c ++ [x]) = flat dims c * n + x := by
  rw [flat_append h]
  simp [flat]

theorem inBounds_append (h : c.length = dims.length) :
    InBounds (dims ++ dims') (c ++ c') ↔ InBounds dims c ∧ InBounds dims' c' := by
  induction dims generalizing c with
  | nil =>
    obtain rfl := length_eq_zero_iff.mp h
    simp
  | cons n dims ih =>
    cases c with
    | nil => simp at h
    | cons x c => simp [ih (succ_injective h), and_assoc]

/-! ### Blocks of a grid -/

section

variable {origin x : List ℕ}

theorem shift_append (h : origin.length = x.length) (o t : ℕ) :
    shift (origin ++ [o]) (x ++ [t]) = shift origin x ++ [o + t] := by
  rw [shift, zipWith_append h, shift, zipWith_cons_cons, zipWith_nil_left]

/-- The cells of a block over a cell, axis by axis. -/
theorem exists_block_append {block : List ℕ} {o b z : ℕ} (h : origin.length = block.length) :
    (∃ d, InBounds (block ++ [b]) d ∧ shift (origin ++ [o]) d = c ++ [z]) ↔
      ∃ x, InBounds block x ∧ shift origin x = c ∧ o ≤ z ∧ z < o + b := by
  constructor
  · rintro ⟨d, hd, hshift⟩
    obtain rfl | ⟨x, t, rfl⟩ := eq_nil_or_concat' d
    · simpa using hd.length_eq
    · have hx : x.length = block.length := by simpa using hd.length_eq
      obtain ⟨hin, ht⟩ := (inBounds_append hx).mp hd
      rw [shift_append (h.trans hx.symm)] at hshift
      obtain ⟨hrest, hlast⟩ := append_inj' hshift rfl
      have hlast := (cons.inj hlast).1
      have ht := (inBounds_cons.mp ht).1
      exact ⟨x, hin, hrest, by omega, by omega⟩
  · rintro ⟨x, hx, hshift, hle, hlt⟩
    refine ⟨x ++ [z - o], (inBounds_append hx.length_eq).mpr ⟨hx, ?_⟩, ?_⟩
    · exact inBounds_cons.mpr ⟨by omega, inBounds_nil⟩
    · rw [shift_append (h.trans hx.length_eq.symm), hshift, add_sub_of_le hle]

/-- A place in rows of `n` determines its row and its column. -/
theorem mul_add_inj {i i' j j' : ℕ} (hi : i < n) (hi' : i' < n) (h : j * n + i = j' * n + i') :
    j = j' ∧ i = i' := by
  have hn : 0 < n := lt_of_le_of_lt (zero_le i) hi
  have hmod := congrArg (· % n) h
  have hdiv := congrArg (· / n) h
  simp only [mul_comm _ n, mul_add_mod, mod_eq_of_lt hi, mod_eq_of_lt hi'] at hmod
  simp only [mul_comm _ n, mul_add_div hn, div_eq_of_lt hi, div_eq_of_lt hi'] at hdiv
  exact ⟨hdiv, hmod⟩

/-- A run along the last axis stays in its row. -/
theorem run_covers_iff {k k' z o b : ℕ} (hz : z < n) (ho : o ≤ n) :
    k' * n + o ≤ k * n + z ∧ k * n + z < k' * n + o + min b (n - o) ↔
      k' = k ∧ o ≤ z ∧ z < o + b := by
  constructor
  · rintro ⟨hle, hlt⟩
    rcases lt_trichotomy k k' with h | rfl | h
    · have hrow : (k + 1) * n ≤ k' * n := mul_le_mul_right n h
      rw [succ_mul] at hrow
      omega
    · omega
    · have hrow : (k' + 1) * n ≤ k * n := mul_le_mul_right n h
      rw [succ_mul] at hrow
      omega
  · rintro ⟨rfl, hle, hlt⟩
    omega

end

/-! ### Rows of a run of numbers -/

/-- The numbers below `n` are those of its rows of `width`, the last of which may be short. -/
theorem flatMap_rows (width rows n : ℕ) : ((range rows).flatMap fun row =>
      (range (min width (n - row * width))).map (row * width + ·)) =
      range (min n (rows * width)) := by
  induction rows with
  | zero => simp
  | succ rows ih =>
    rw [range_succ, flatMap_append, ih, flatMap_singleton, succ_mul]
    rcases le_total n (rows * width) with hle | hle
    · -- the row is empty
      rw [show n - rows * width = 0 by omega, min_zero, range_zero, map_nil, append_nil]
      congr 1
      omega
    · rw [min_eq_right hle, ← range_add]
      congr 1
      omega

theorem filterMap_getElem?_range {α β : Type*} (f : ℕ → α → β) (xs : List α) :
    (range xs.length).filterMap (fun i => xs[i]?.map (f i)) = xs.mapIdx f := by
  induction xs generalizing f with
  | nil => rfl
  | cons x xs ih =>
    rw [length_cons, range_succ_eq_map, filterMap_cons, filterMap_map, mapIdx_cons, ← ih]
    rfl

/-- When every number below `n` is found, what is found for `i` is entry `i`. -/
theorem getElem?_filterMap_range {β : Type*} {f : ℕ → Option β} {n i : ℕ}
    (h : ∀ k < n, (f k).isSome) (hi : i < n) : ((range n).filterMap f)[i]? = f i := by
  induction n with
  | zero => omega
  | succ n ih =>
    have hlen : ((range n).filterMap f).length = n := by
      rw [filterMap_length_eq_length.mpr fun k hk => h k (by
        have := mem_range.mp hk; omega), length_range]
    rw [range_succ, filterMap_append]
    rcases Nat.lt_succ_iff_lt_or_eq.mp hi with hlt | rfl
    · rw [getElem?_append_left (by omega), ih (fun k hk => h k (by omega)) hlt]
    · obtain ⟨y, hy⟩ := Option.isSome_iff_exists.mp (h i (lt_succ_self i))
      rw [getElem?_append_right (by omega), hlen, Nat.sub_self, filterMap_cons_some hy, hy]
      rfl

end ClawHdf5.RowMajor
