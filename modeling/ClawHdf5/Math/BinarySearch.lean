import Mathlib.Data.List.Sort

/-!
# Binary search

The binary search of the standard library. It keeps a window that starts at the front or at an
element that is not past the target, with only elements past the target behind it, and halves
it until one element is left.
-/

namespace ClawHdf5.BinarySearch

variable {α : Type*} (cmp : α → Ordering) (xs : List α)

/-- How the element at a position compares with the target; behind the list everything is past
the target. -/
def compareAt (i : ℕ) : Ordering := (xs[i]?.map cmp).getD .gt

/-- Halve the window until one element is left. Every round shrinks the window, so as many
rounds as it is long suffice. -/
def narrow : ℕ → ℕ → ℕ → ℕ
  | 0, base, _ => base
  | fuel + 1, base, size =>
    if size > 1 then
      let half := size / 2
      let mid := base + half
      narrow fuel (if compareAt cmp xs mid = .gt then base else mid) (size - half)
    else base

/-- The position of an element that compares as equal, or the place to insert one. -/
def binarySearchBy : Except ℕ ℕ :=
  if xs.length = 0 then .error 0
  else
    let base := narrow cmp xs xs.length 0 xs.length
    match compareAt cmp xs base with
    | .eq => .ok base
    | .lt => .error (base + 1)
    | .gt => .error base

/-- Elements past the target are followed by such elements only, and elements before it are
preceded by such elements only. -/
def Ascending : Prop :=
  xs.Pairwise fun x y => (cmp x = .gt → cmp y = .gt) ∧ (cmp y = .lt → cmp x = .lt)

variable {cmp xs}

theorem compareAt_of_getElem? {i : ℕ} {x : α} (h : xs[i]? = some x) :
    compareAt cmp xs i = cmp x := by
  rw [compareAt, h, Option.map_some, Option.getD_some]

theorem compareAt_of_le {i : ℕ} (h : xs.length ≤ i) : compareAt cmp xs i = .gt := by
  rw [compareAt, List.getElem?_eq_none h, Option.map_none, Option.getD_none]

theorem binarySearchBy_eq_ok {i : ℕ} (h : binarySearchBy cmp xs = .ok i) :
    ∃ x, xs[i]? = some x ∧ cmp x = .eq := by
  unfold binarySearchBy at h
  split_ifs at h
  dsimp only at h
  split at h <;> cases h
  next heq =>
    rw [compareAt] at heq
    cases hx : xs[narrow cmp xs xs.length 0 xs.length]? with
    | none => simp [hx] at heq
    | some x => exact ⟨x, rfl, by simpa [hx] using heq⟩

theorem Ascending.compareAt_gt (h : Ascending cmp xs) {i j : ℕ} (hij : i ≤ j)
    (hi : compareAt cmp xs i = .gt) : compareAt cmp xs j = .gt := by
  rcases Nat.eq_or_lt_of_le hij with rfl | hlt
  · exact hi
  rcases Nat.lt_or_ge j xs.length with hj | hj
  · rw [compareAt_of_getElem? (List.getElem?_eq_getElem hj)]
    rw [compareAt_of_getElem? (List.getElem?_eq_getElem (Nat.lt_trans hlt hj))] at hi
    exact (List.pairwise_iff_getElem.mp h i j (Nat.lt_trans hlt hj) hj hlt).1 hi
  · exact compareAt_of_le hj

theorem Ascending.compareAt_lt (h : Ascending cmp xs) {i j : ℕ} (hij : i ≤ j)
    (hj : compareAt cmp xs j = .lt) : compareAt cmp xs i = .lt := by
  rcases Nat.eq_or_lt_of_le hij with rfl | hlt
  · exact hj
  have hj' : j < xs.length := by
    by_contra hge
    rw [compareAt_of_le (Nat.le_of_not_lt hge)] at hj
    cases hj
  rw [compareAt_of_getElem? (List.getElem?_eq_getElem (Nat.lt_trans hlt hj'))]
  rw [compareAt_of_getElem? (List.getElem?_eq_getElem hj')] at hj
  exact (List.pairwise_iff_getElem.mp h i j (Nat.lt_trans hlt hj') hj' hlt).2 hj

/-- The last window holds one element, which is not past the target unless it is the first,
and everything behind it is past the target. -/
theorem narrow_spec (h : Ascending cmp xs) {fuel base size : ℕ} (hsize : 1 ≤ size)
    (hfuel : size ≤ fuel + 1) (hbase : base = 0 ∨ compareAt cmp xs base ≠ .gt)
    (hbehind : compareAt cmp xs (base + size) = .gt) :
    (narrow cmp xs fuel base size = 0 ∨ compareAt cmp xs (narrow cmp xs fuel base size) ≠ .gt) ∧
    compareAt cmp xs (narrow cmp xs fuel base size + 1) = .gt := by
  induction fuel generalizing base size with
  | zero =>
    obtain rfl : size = 1 := by omega
    exact ⟨hbase, hbehind⟩
  | succ fuel ih =>
    by_cases hlarge : size > 1
    · rw [narrow]
      dsimp only
      split_ifs with hmid
      · refine ih (by omega) (by omega) hbase (h.compareAt_gt ?_ hmid)
        omega
      · refine ih (by omega) (by omega) (.inr hmid) ?_
        rwa [show base + size / 2 + (size - size / 2) = base + size by omega]
    · obtain rfl : size = 1 := by omega
      exact ⟨hbase, hbehind⟩

/-- In an ascending list a match is found if there is one. -/
theorem binarySearchBy_finds (h : Ascending cmp xs) {k : ℕ} (hk : compareAt cmp xs k = .eq) :
    ∃ i, binarySearchBy cmp xs = .ok i := by
  have hlen : k < xs.length := by
    by_contra hge
    rw [compareAt_of_le (Nat.le_of_not_lt hge)] at hk
    cases hk
  have hall : compareAt cmp xs (0 + xs.length) = .gt := compareAt_of_le (by omega)
  obtain ⟨hfront, hbehind⟩ := narrow_spec h (by omega) (Nat.le_succ xs.length) (.inl rfl) hall
  refine ⟨narrow cmp xs xs.length 0 xs.length, ?_⟩
  rw [binarySearchBy, if_neg (by omega)]
  dsimp only
  generalize narrow cmp xs xs.length 0 xs.length = b at hfront hbehind
  -- the match is not behind the last window
  have hle : k ≤ b := by
    by_contra hgt
    rw [h.compareAt_gt (show b + 1 ≤ k by omega) hbehind] at hk
    cases hk
  cases hb : compareAt cmp xs b with
  | eq => rfl
  | lt =>
    rw [h.compareAt_lt hle hb] at hk
    cases hk
  | gt =>
    obtain rfl : k = b := by
      rcases hfront with rfl | hne
      · omega
      · exact absurd hb hne
    rw [hb] at hk
    cases hk

/-! ### Partition points -/

/-- The position of the first element without `p`, if those with `p` come first. -/
def partitionPoint (p : α → Bool) (xs : List α) : ℕ :=
  match binarySearchBy (fun x => if p x then .lt else .gt) xs with
  | .ok i => i
  | .error i => i

variable {p q : α → Bool} (hp : xs.Pairwise fun x y => p y → p x)

theorem countP_eq_zero_of_head {x : α} {xs : List α} (hp : (x :: xs).Pairwise fun x y => p y → p x)
    (hx : ¬ p x) : xs.countP p = 0 :=
  List.countP_eq_zero.mpr fun _ hy hpy => hx (List.rel_of_pairwise_cons hp hy hpy)

include hp

theorem compareAt_of_pairwise (i : ℕ) :
    compareAt (fun x => if p x then .lt else .gt) xs i = if i < xs.countP p then .lt else .gt := by
  induction xs generalizing i with
  | nil => rfl
  | cons x xs ih =>
    by_cases hx : p x
    · cases i with
      | zero => simp [compareAt, hx]
      | succ i => simpa [compareAt, hx] using ih hp.of_cons i
    · have hnone := countP_eq_zero_of_head hp hx
      cases i with
      | zero => simp [compareAt, hx, hnone]
      | succ i => simpa [compareAt, hx, hnone] using ih hp.of_cons i

theorem partitionPoint_eq_countP : partitionPoint p xs = xs.countP p := by
  have hascending : Ascending (fun x => if p x then .lt else .gt) xs := hp.imp fun h => by grind
  have hat := compareAt_of_pairwise hp
  rw [partitionPoint, binarySearchBy]
  split_ifs with hempty
  · simp [List.length_eq_zero_iff.mp hempty]
  · obtain ⟨hfront, hbehind⟩ := narrow_spec hascending (by omega) (Nat.le_succ xs.length) (.inl rfl)
      (compareAt_of_le (by omega))
    generalize narrow _ xs xs.length 0 xs.length = b at *
    simp only [hat] at hfront hbehind ⊢
    grind

theorem split_partitionPoint :
    xs.take (partitionPoint p xs) = xs.filter p ∧
      xs.drop (partitionPoint p xs) = xs.filter (!p ·) := by
  rw [partitionPoint_eq_countP hp]
  induction xs with
  | nil => exact ⟨rfl, rfl⟩
  | cons x xs ih =>
    by_cases hx : p x
    · simpa [hx] using ih hp.of_cons
    · have hnone := countP_eq_zero_of_head hp hx
      have hall : xs.filter (!p ·) = xs := by
        simpa [List.filter_eq_self] using List.countP_eq_zero.mp hnone
      simpa [hx, hnone, hall] using List.countP_eq_zero.mp hnone

variable (hq : xs.Pairwise fun x y => q y → q x)
include hq

/-- What lies between two partition points is a slice exactly if `p` is the stronger predicate. -/
theorem partitionPoint_le_iff :
    partitionPoint p xs ≤ partitionPoint q xs ↔ ∀ x ∈ xs, p x → q x := by
  constructor
  · intro h x hx hpx
    have hmem : x ∈ xs.take (partitionPoint q xs) := by
      apply (List.take_prefix_take_left h).subset
      simpa [(split_partitionPoint hp).1] using ⟨hx, hpx⟩
    rw [(split_partitionPoint hq).1] at hmem
    exact (List.mem_filter.mp hmem).2
  · rw [partitionPoint_eq_countP hp, partitionPoint_eq_countP hq]
    exact List.countP_mono_left

theorem drop_take_partitionPoint (h : ∀ x ∈ xs, p x → q x) :
    (xs.take (partitionPoint q xs)).drop (partitionPoint p xs) =
      xs.filter fun x => !p x && q x := by
  -- what is dropped are the elements with `p` of what was taken
  have hlo : partitionPoint p xs = partitionPoint p (xs.filter q) := by
    rw [partitionPoint_eq_countP hp, partitionPoint_eq_countP (hp.filter q), List.countP_filter]
    exact List.countP_congr fun x hx => by simpa using h x hx
  rw [(split_partitionPoint hq).1, hlo, (split_partitionPoint (hp.filter q)).2, List.filter_filter]

omit hp hq in
theorem insertIdx_partitionPoint [LinearOrder α] {xs : List α} (a : α)
    (hxs : xs.Pairwise (· ≤ ·)) :
    xs.insertIdx (partitionPoint (· < a) xs) a = xs.orderedInsert (· ≤ ·) a := by
  rw [partitionPoint_eq_countP (hxs.imp fun h => by simpa using h.trans_lt)]
  induction xs with
  | nil => rfl
  | cons b xs ih =>
    by_cases hb : b < a
    · simpa [hb, hb.not_ge] using ih hxs.of_cons
    · have hnone : xs.countP (· < a) = 0 :=
        List.countP_eq_zero.mpr fun c hc => by
          simpa using (not_lt.mp hb).trans (List.rel_of_pairwise_cons hxs hc)
      simp [hb, hnone, not_lt.mp hb]

end ClawHdf5.BinarySearch
