import Mathlib.Data.List.Basic

/-!
# Overwriting part of a list, and files of equally wide slots

A write at a position of a file replaces what stands there and lengthens the file when it
runs past the end. In a file that is a header followed by equally wide slots, a write of
whole slots at a slot boundary is the same operation on the list of slots.
-/

namespace ClawHdf5.Overwrite

open List

variable {α β : Type*}
variable {xs ys : List α} {i : ℕ}

/-- `ys` written over `xs` from position `i` on. -/
def overwrite (xs : List α) (i : ℕ) (ys : List α) : List α :=
  xs.take i ++ ys ++ xs.drop (i + ys.length)

@[simp] theorem overwrite_nil (xs : List α) (i : ℕ) : overwrite xs i [] = xs := by
  simp [overwrite]

theorem length_overwrite (hi : i ≤ xs.length) :
    (overwrite xs i ys).length = max xs.length (i + ys.length) := by
  simp only [overwrite, length_append, length_take, length_drop]
  omega

theorem take_overwrite (ys : List α) (hi : i ≤ xs.length) :
    (overwrite xs i ys).take i = xs.take i := by
  have hlen : (xs.take i).length = i := length_take_of_le hi
  rw [overwrite, append_assoc, take_left' hlen]

theorem drop_overwrite (ys : List α) (hi : i ≤ xs.length) :
    (overwrite xs i ys).drop i = ys ++ xs.drop (i + ys.length) := by
  have hlen : (xs.take i).length = i := length_take_of_le hi
  rw [overwrite, append_assoc, drop_left' hlen]

theorem overwrite_getElem (hi : i < xs.length) : overwrite xs i [xs[i]] = xs := by
  rw [overwrite, length_singleton, append_assoc, singleton_append,
    ← drop_eq_getElem_cons hi, take_append_drop]

/-- Two consecutive writes are one. -/
theorem overwrite_append {zs : List α} (hi : i ≤ xs.length) :
    overwrite (overwrite xs i ys) (i + ys.length) zs = overwrite xs i (ys ++ zs) := by
  have hlen : (xs.take i ++ ys).length = i + ys.length := by
    rw [length_append, length_take, Nat.min_eq_left hi]
  have htake : (overwrite xs i ys).take (i + ys.length) = xs.take i ++ ys := by
    rw [overwrite, ← hlen, take_left]
  have hdrop : (overwrite xs i ys).drop (i + ys.length + zs.length) =
      xs.drop (i + (ys ++ zs).length) := by
    rw [overwrite, ← hlen, ← drop_drop, drop_left, drop_drop, hlen, length_append, Nat.add_assoc]
  rw [overwrite, htake, hdrop, overwrite]
  simp

theorem overwrite_append_rest (hi : i ≤ xs.length) (rest : List α) :
    overwrite (xs ++ rest) i ys = overwrite xs i ys ++ rest.drop (i + ys.length - xs.length) := by
  rw [overwrite, overwrite, take_append_of_le_length hi, drop_append]
  simp

/-! ### Files of equally wide slots -/

section

variable {f : β → List α} {w : ℕ}

section

variable (hf : ∀ b, (f b).length = w)
include hf

theorem length_slots (xs : List β) : (xs.flatMap f).length = xs.length * w := by
  simp [hf]

theorem drop_slots (xs : List β) (i : ℕ) : (xs.flatMap f).drop (i * w) = (xs.drop i).flatMap f := by
  induction i generalizing xs with
  | zero => simp
  | succ i ih =>
    cases xs with
    | nil => simp
    | cons x xs =>
      have hfirst : (f x ++ xs.flatMap f).drop w = xs.flatMap f := by
        rw [← hf x, drop_left]
      rw [flatMap_cons, Nat.succ_mul, Nat.add_comm, ← drop_drop, hfirst, ih, drop_succ_cons]

theorem take_slots (xs : List β) (i : ℕ) : (xs.flatMap f).take (i * w) = (xs.take i).flatMap f := by
  induction i generalizing xs with
  | zero => simp
  | succ i ih =>
    cases xs with
    | nil => simp
    | cons x xs =>
      rw [flatMap_cons, Nat.succ_mul, Nat.add_comm, ← hf x, take_length_add_append, hf x,
        ih, take_succ_cons, flatMap_cons]

theorem take_drop_slots (header : List α) {xs : List β} {b : β} (hi : xs[i]? = some b) :
    ((header ++ xs.flatMap f).drop (header.length + i * w)).take w = f b := by
  obtain ⟨hlt, rfl⟩ := List.getElem?_eq_some_iff.mp hi
  rw [← drop_drop, drop_left, drop_slots hf, drop_eq_getElem_cons hlt]
  nth_rewrite 1 [← hf xs[i]]
  exact take_left

/-- Writing whole slots at a slot boundary overwrites the list of slots. -/
theorem overwrite_slots (header : List α) (xs ys : List β) (i : ℕ) :
    overwrite (header ++ xs.flatMap f) (header.length + i * w) (ys.flatMap f) =
      header ++ (overwrite xs i ys).flatMap f := by
  have hend : header.length + i * w + ys.length * w = header.length + (i + ys.length) * w := by
    rw [Nat.add_mul, Nat.add_assoc]
  unfold overwrite
  rw [length_slots hf, hend, take_length_add_append, ← drop_drop, drop_left,
    take_slots hf, drop_slots hf]
  simp

end

end

/-! ### Writing one value several times -/

open scoped Classical in
/-- When each step either writes `v` to a place or leaves the place alone, `v` is there after the
steps if one of them wrote it. -/
theorem foldl_write {σ ι : Type*} {step : σ → ι → σ} (read : σ → β) (Inv : σ → Prop)
    (Writes : ι → Prop) (v : β) {is : List ι} {s : σ} (hinv : ∀ s i, Inv s → Inv (step s i))
    (hstep : ∀ i ∈ is, ∀ s, Inv s → read (step s i) = if Writes i then v else read s)
    (hs : Inv s) : read (is.foldl step s) = if ∃ i ∈ is, Writes i then v else read s := by
  induction is generalizing s with
  | nil => simp
  | cons i is ih =>
    obtain ⟨hhere, hrest⟩ := forall_mem_cons.mp hstep
    rw [foldl_cons, ih hrest (hinv s i hs), hhere s hs]
    simp only [exists_mem_cons_iff]
    by_cases hlater : ∃ i ∈ is, Writes i
    · rw [if_pos hlater, if_pos (Or.inr hlater)]
    · by_cases hwrites : Writes i
      · rw [if_neg hlater, if_pos hwrites, if_pos (Or.inl hwrites)]
      · rw [if_neg hlater, if_neg hwrites, if_neg (not_or.mpr ⟨hwrites, hlater⟩)]

/-! ### Buffers of equally wide cells -/

section

variable {w n i j p : ℕ} {b ys : List α}

/-- Cell `i` of a buffer whose cells have width `w`. -/
def cell (w : ℕ) (b : List α) (i : ℕ) : List α := (b.drop (i * w)).take w

theorem getElem?_overwrite (hp : p + ys.length ≤ b.length) (k : ℕ) :
    (overwrite b p ys)[k]? = if p ≤ k ∧ k < p + ys.length then ys[k - p]? else b[k]? := by
  have htake : (b.take p).length = p := length_take_of_le (by omega)
  rw [overwrite, append_assoc]
  split_ifs with h
  · rw [getElem?_append_right (by omega), htake, getElem?_append_left (by omega)]
  · rcases Nat.lt_or_ge k p with hk | hk
    · rw [getElem?_append_left (by omega), getElem?_take_of_lt hk]
    · rw [getElem?_append_right (by omega), getElem?_append_right (by omega), getElem?_drop]
      congr 1
      omega

theorem take_drop_overwrite {q : ℕ} (hq : q + ys.length ≤ b.length)
    (h : p + n ≤ q ∨ q + ys.length ≤ p) :
    ((overwrite b q ys).drop p).take n = (b.drop p).take n := by
  refine ext_getElem? fun k => ?_
  rw [getElem?_take, getElem?_take]
  split_ifs with hk
  · rw [getElem?_drop, getElem?_drop, getElem?_overwrite hq, if_neg (by omega)]
  · rfl

theorem getElem?_cell (w : ℕ) (b : List α) (i j : ℕ) :
    (cell w b i)[j]? = if j < w then b[i * w + j]? else none := by
  rw [cell, getElem?_take, getElem?_drop]

/-- The position of an element of cell `i` lies before, inside or behind a run of cells as `i`
does. -/
theorem le_cell_iff (hj : j < w) (i m : ℕ) : m * w ≤ i * w + j ↔ m ≤ i := by
  constructor
  · intro h
    by_contra hlt
    have : (i + 1) * w ≤ m * w := Nat.mul_le_mul_right w (by omega)
    rw [Nat.succ_mul] at this
    omega
  · intro h
    exact Nat.le_add_right_of_le (Nat.mul_le_mul_right w h)

/-- Writing whole cells at a cell boundary changes those cells and no other. -/
theorem cell_overwrite {m : ℕ} (hm : (m + n) * w ≤ b.length) (hys : ys.length = n * w) (i : ℕ) :
    cell w (overwrite b (m * w) ys) i =
      if m ≤ i ∧ i < m + n then cell w ys (i - m) else cell w b i := by
  rw [Nat.add_mul] at hm
  refine ext_getElem? fun j => ?_
  rw [getElem?_cell]
  by_cases hj : j < w
  · have hstart := le_cell_iff hj i m
    have hend := le_cell_iff hj i (m + n)
    rw [Nat.add_mul] at hend
    rw [getElem?_overwrite (by omega)]
    split_ifs with hpos hcell hcell
    · have hle : m * w ≤ i * w := Nat.mul_le_mul_right w hcell.1
      rw [getElem?_cell, if_pos hj, Nat.sub_mul, Nat.sub_add_comm hle]
    · omega
    · omega
    · rw [getElem?_cell, if_pos hj]
  · rw [if_neg hj]
    split_ifs <;> rw [getElem?_cell, if_neg hj]

theorem cell_take_drop (b : List α) (m : ℕ) (hi : i < n) :
    cell w ((b.drop (m * w)).take (n * w)) i = cell w b (m + i) := by
  refine ext_getElem? fun j => ?_
  simp only [getElem?_cell]
  split_ifs with hj
  · have hend := le_cell_iff hj i n
    rw [getElem?_take_of_lt (by omega), getElem?_drop, Nat.add_mul, Nat.add_assoc]
  · rfl

theorem cell_flatMap {f : β → List α} (hf : ∀ b, (f b).length = w) {xs : List β} {x : β}
    (hi : xs[i]? = some x) : cell w (xs.flatMap f) i = f x := by
  have h := take_drop_slots hf [] hi
  rwa [length_nil, Nat.zero_add] at h

theorem cell_replicate (a : α) (hi : i < n) : cell w (replicate (n * w) a) i = replicate w a := by
  have hle : (i + 1) * w ≤ n * w := Nat.mul_le_mul_right w hi
  rw [Nat.succ_mul] at hle
  rw [cell, drop_replicate, take_replicate, Nat.min_eq_left (by omega)]

/-- A buffer is determined by its cells. -/
theorem eq_of_cell_eq {b b' : List α} (hb : b.length = n * w) (hb' : b'.length = n * w)
    (h : ∀ i < n, cell w b i = cell w b' i) : b = b' := by
  refine ext_getElem? fun k => ?_
  rcases Nat.lt_or_ge k (n * w) with hk | hk
  · have hw : 0 < w := Nat.pos_of_ne_zero fun h0 => by simp [h0] at hk
    have hcell := congrArg (fun xs => xs[k % w]?) (h (k / w) (Nat.div_lt_of_lt_mul (by
      rwa [Nat.mul_comm])))
    simpa only [getElem?_cell, if_pos (Nat.mod_lt k hw), Nat.div_add_mod'] using hcell
  · rw [getElem?_eq_none (by omega), getElem?_eq_none (by omega)]

end

end ClawHdf5.Overwrite
