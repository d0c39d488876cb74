import Mathlib.Algebra.Order.Group.Nat
import Mathlib.Data.List.DropRight

/-!
# Columns of fixed-width cells

A column of values is stored as cells of one width, one behind the other. Values that are shorter
are padded, and the padding is taken off again when a cell is read.
-/

namespace ClawHdf5.Cells

open List

variable {α β : Type*}

/-- The consecutive pieces of `w` elements. The last one has what is left. -/
def chunks (w : ℕ) (xs : List α) : List (List α) :=
  (range ((xs.length + w - 1) / w)).map fun i => (xs.drop (i * w)).take w

@[simp] theorem chunks_nil (w : ℕ) : chunks w ([] : List α) = [] := by
  have h : (0 + w - 1) / w = 0 := by
    rcases eq_zero_or_pos w with rfl | hw
    · rfl
    · exact Nat.div_eq_of_lt (by omega)
  rw [chunks, length_nil, h]
  rfl

/-- A full piece at the front comes first. -/
theorem chunks_append {w : ℕ} (hw : 0 < w) {xs : List α} (hxs : xs.length = w) (ys : List α) :
    chunks w (xs ++ ys) = xs :: chunks w ys := by
  have hcount : ((xs ++ ys).length + w - 1) / w = (ys.length + w - 1) / w + 1 := by
    have h : (xs ++ ys).length + w - 1 = (ys.length + w - 1) + w := by
      rw [length_append]
      omega
    rw [h, Nat.add_div_right _ hw]
  rw [chunks, hcount, range_succ_eq_map, map_cons, map_map]
  congr 1
  · rw [Nat.zero_mul, drop_zero, ← hxs, take_left]
  · refine map_congr_left fun i _ => ?_
    have h : (i + 1) * w = xs.length + i * w := by rw [hxs, Nat.succ_mul, add_comm]
    rw [Function.comp_apply, h, ← drop_drop, drop_left]

theorem chunks_flatMap {w : ℕ} (hw : 0 < w) {f : β → List α} {bs : List β}
    (hf : ∀ b ∈ bs, (f b).length = w) : chunks w (bs.flatMap f) = bs.map f := by
  induction bs with
  | nil => exact chunks_nil w
  | cons b bs ih =>
    obtain ⟨hb, hbs⟩ := forall_mem_cons.mp hf
    rw [flatMap_cons, chunks_append hw hb, ih hbs, map_cons]

theorem length_column {w : ℕ} {f : β → List α} {bs : List β} (hf : ∀ b ∈ bs, (f b).length = w) :
    (bs.flatMap f).length = bs.length * w := by
  rw [length_flatMap, map_congr_left hf, map_const', sum_replicate_nat]

/-! ### Padding -/

/-- Cut or pad to `w` elements. -/
def resize (w : ℕ) (pad : α) (xs : List α) : List α :=
  xs.take w ++ replicate (w - xs.length) pad

@[simp] theorem length_resize (w : ℕ) (pad : α) (xs : List α) : (resize w pad xs).length = w := by
  rw [resize, length_append, length_take, length_replicate]
  omega

theorem resize_length (pad : α) (xs : List α) : resize xs.length pad xs = xs := by
  rw [resize, take_length, Nat.sub_self, replicate_zero, append_nil]

theorem rdropWhile_append_replicate {p : α → Bool} {pad : α} (hp : p pad = true) (xs : List α)
    (n : ℕ) : (xs ++ replicate n pad).rdropWhile p = xs.rdropWhile p := by
  induction n with
  | zero => rw [replicate_zero, append_nil]
  | succ n ih => rw [replicate_succ', ← append_assoc, rdropWhile_concat, if_pos hp, ih]

theorem rdropWhile_resize {p : α → Bool} {pad : α} (hp : p pad = true) {w : ℕ} {xs : List α}
    (hw : xs.length ≤ w) (hlast : ∀ x ∈ xs.getLast?, p x = false) :
    (resize w pad xs).rdropWhile p = xs := by
  rw [resize, rdropWhile_append_replicate hp, take_of_length_le hw, rdropWhile_eq_self_iff]
  intro hne
  rw [hlast _ (getLast?_eq_some_getLast hne)]
  exact Bool.false_ne_true

end ClawHdf5.Cells
