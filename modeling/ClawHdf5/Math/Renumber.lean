import Mathlib.Order.Interval.Finset.Nat

/-!
# Renumbering by a filter

Filtering a list moves each element that is kept to the number of kept elements before it. An index
that is not changed along with the list still means the same element exactly if everything up to it
is kept.
-/

namespace ClawHdf5.Renumber

open List Nat

variable {α : Type*} (p : α → Bool) (xs : List α)

/-- Whether there is an element at an index that is kept. -/
def kept (i : ℕ) : Bool := xs[i]?.any p

/-- The number of kept elements before an index. -/
def rank (i : ℕ) : ℕ := (xs.take i).countP p

/-- The index a kept element moves to. -/
def image (i : ℕ) : Option ℕ := if kept p xs i then some (rank p xs i) else none

/-- All elements up to an index are kept. -/
def Full (i : ℕ) : Prop := ∀ k ≤ i, kept p xs k = true
  deriving Decidable

variable {p xs} {i j a b : ℕ}

@[simp] theorem image_eq_some : image p xs i = some j ↔ kept p xs i = true ∧ rank p xs i = j := by
  unfold image
  split <;> simp_all

theorem kept_of_length_le (h : xs.length ≤ i) : kept p xs i = false := by
  rw [kept, getElem?_eq_none h]
  rfl

theorem rank_succ (i : ℕ) : rank p xs (i + 1) = rank p xs i + if kept p xs i then 1 else 0 := by
  unfold rank kept
  rw [take_add_one, countP_append]
  cases xs[i]? with
  | none => rfl
  | some x => simp

theorem rank_mono (h : a ≤ b) : rank p xs a ≤ rank p xs b := (take_sublist_take_left h).countP_le

theorem rank_le (i : ℕ) : rank p xs i ≤ i := countP_le_length.trans (length_take_le i xs)

theorem rank_of_length_le (h : xs.length ≤ i) : rank p xs i = (xs.filter p).length := by
  rw [rank, take_of_length_le h, countP_eq_length_filter]

theorem rank_le_length_filter (i : ℕ) : rank p xs i ≤ (xs.filter p).length := by
  rw [← countP_eq_length_filter]
  exact (take_sublist i xs).countP_le

/-- The kept elements of a range go to a range. -/
theorem exists_image_iff (h : a ≤ b) :
    (∃ i, a ≤ i ∧ i < b ∧ image p xs i = some j) ↔ rank p xs a ≤ j ∧ j < rank p xs b := by
  induction b, h using le_induction with
  | base =>
    constructor
    · rintro ⟨i, hle, hlt, _⟩
      omega
    · omega
  | succ b hab ih =>
    have hmono := @rank_mono _ p xs _ _ hab
    rw [rank_succ]
    constructor
    · rintro ⟨i, hle, hlt, himage⟩
      rcases Nat.lt_succ_iff_lt_or_eq.mp hlt with hlt | rfl
      · have hrange := ih.mp ⟨i, hle, hlt, himage⟩
        omega
      · obtain ⟨hkept, rfl⟩ := image_eq_some.mp himage
        rw [if_pos hkept]
        omega
    · rintro ⟨hle, hlt⟩
      by_cases hj : j < rank p xs b
      · obtain ⟨i, hai, hib, himage⟩ := ih.mpr ⟨hle, hj⟩
        exact ⟨i, hai, lt_succ_of_lt hib, himage⟩
      · -- the last element is kept
        split at hlt
        case isTrue hkept =>
          exact ⟨b, hab, lt_succ_self b, image_eq_some.mpr ⟨hkept, by omega⟩⟩
        case isFalse => omega

/-- Nothing of a range is kept. -/
theorem rank_eq_rank_iff (h : a ≤ b) :
    rank p xs a = rank p xs b ↔ ∀ k, a ≤ k → k < b → kept p xs k = false := by
  induction b, h using le_induction with
  | base =>
    refine iff_of_true rfl ?_
    omega
  | succ b hab ih =>
    have hmono := @rank_mono _ p xs _ _ hab
    rw [rank_succ]
    constructor
    · intro heq k hak hkb
      split at heq
      case isTrue => omega
      case isFalse hkept =>
        rcases Nat.lt_succ_iff_lt_or_eq.mp hkb with hkb | rfl
        · exact ih.mp heq k hak hkb
        · exact Bool.eq_false_iff.mpr hkept
    · intro hall
      rw [hall b hab (lt_succ_self b)]
      exact ih.mpr fun k hak hkb => hall k hak (lt_succ_of_lt hkb)

/-- An index is its own rank exactly if everything before it is kept. -/
theorem rank_eq_self_iff : rank p xs i = i ↔ ∀ k < i, kept p xs k = true := by
  induction i with
  | zero => exact iff_of_true rfl nofun
  | succ i ih =>
    have hle := @rank_le _ p xs i
    rw [rank_succ]
    constructor
    · intro hrank k hk
      split at hrank
      case isTrue hkept =>
        rcases Nat.lt_succ_iff_lt_or_eq.mp hk with hk | rfl
        · exact ih.mp (by omega) k hk
        · exact hkept
      case isFalse => omega
    · intro hall
      rw [if_pos (hall i (lt_succ_self i)), ih.mpr fun k hk => hall k (lt_succ_of_lt hk)]

theorem full_iff_rank : Full p xs i ↔ rank p xs (i + 1) = i + 1 := by
  rw [rank_eq_self_iff]
  simp only [Full, Nat.lt_succ_iff]

theorem full_iff_image : Full p xs i ↔ image p xs i = some i := by
  have hle := @rank_le _ p xs i
  rw [full_iff_rank, rank_succ, image_eq_some]
  split
  case isTrue hkept => simp [hkept]
  case isFalse hkept => exact iff_of_false (by omega) fun h => hkept h.1

theorem image_self_iff : (i < (xs.filter p).length → image p xs i = some i) ↔
      Full p xs i ∨ (xs.filter p).length ≤ i := by
  rw [full_iff_image]
  constructor
  · intro h
    rcases lt_or_ge i (xs.filter p).length with hlt | hge
    · exact .inl (h hlt)
    · exact .inr hge
  · rintro (h | hge) hlt
    · exact h
    · omega

/-- Nothing is kept behind an index exactly if the elements up to it are all that are kept. -/
theorem rank_eq_length_filter_iff :
    rank p xs a = (xs.filter p).length ↔ ∀ k, a ≤ k → kept p xs k = false := by
  have hend : rank p xs (max a xs.length) = (xs.filter p).length :=
    rank_of_length_le (le_max_right _ _)
  rw [← hend, rank_eq_rank_iff (le_max_left _ _)]
  constructor
  · intro h k hak
    by_cases hk : k < max a xs.length
    · exact h k hak hk
    · exact kept_of_length_le (by omega)
  · intro h k hak _
    exact h k hak

/-- When a range, as far as it is still in range, has the elements that are kept of it. -/
theorem range_image_iff (hab : a ≤ b) (ha : Full p xs a ∨ (xs.filter p).length ≤ a)
    (hb : Full p xs b ∨ (xs.filter p).length ≤ b) :
    (∀ j, (a ≤ j ∧ j ≤ b ∧ j < (xs.filter p).length) ↔ ∃ i, a ≤ i ∧ i ≤ b ∧ image p xs i = some j) ↔
      Full p xs b ∨ (Full p xs a ∧ ∀ k, b < k → kept p xs k = false) ∨
        ∀ k, a ≤ k → k ≤ b → kept p xs k = false := by
  have hrange (j : ℕ) := @exists_image_iff _ p xs j a (b + 1) (le_succ_of_le hab)
  have hempty := @rank_eq_rank_iff _ p xs a (b + 1) (le_succ_of_le hab)
  have hrest := @rank_eq_length_filter_iff _ p xs (b + 1)
  simp only [Nat.lt_succ_iff, succ_le_iff] at hrange hempty hrest
  simp only [hrange, ← hempty, ← hrest]
  -- all that is left is about the bounds of two ranges
  have hA := @rank_le _ p xs a
  have hAB := @rank_mono _ p xs (a + 1) (b + 1) (succ_le_succ hab)
  have hmono := @rank_mono _ p xs a (a + 1) (le_succ a)
  have hBK := @rank_le_length_filter _ p xs (b + 1)
  have hfullA : Full p xs a → rank p xs a = a ∧ rank p xs (a + 1) = a + 1 := fun h =>
    ⟨(image_eq_some.mp (full_iff_image.mp h)).2, full_iff_rank.mp h⟩
  constructor
  · intro h
    have hlow := h (rank p xs a)
    have hhigh := h (rank p xs (b + 1))
    rcases hb with hb | hb
    · exact .inl hb
    · rcases ha with ha | ha
      · have := hfullA ha
        exact .inr (.inl ⟨ha, by omega⟩)
      · exact .inr (.inr (by omega))
  · rintro (hfull | ⟨hfull, hall⟩ | hnone) j
    · have := hfullA fun k hk => hfull k (hk.trans hab)
      have := full_iff_rank.mp hfull
      omega
    · have := hfullA hfull
      rcases hb with hb | hb
      · have := full_iff_rank.mp hb
        omega
      · omega
    · rcases ha with ha | ha
      · have := hfullA ha
        omega
      · omega

end ClawHdf5.Renumber
