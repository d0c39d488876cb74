import Mathlib.Data.List.Destutter
import Mathlib.Data.List.Sort

/-!
# Sorted lists without repetitions

A list is sorted and then repeated neighbours are dropped, which leaves every element once
and in order. A list sorted by a key that tells its elements apart does not depend on the order
in which they came.
-/

namespace ClawHdf5.SortDedup

open List

variable {α : Type} [DecidableEq α] (r : α → α → Prop) [DecidableRel r]

/-- Sort, then drop elements equal to their predecessor. -/
def sortDedup (xs : List α) : List α := (xs.insertionSort r).destutter (· ≠ ·)

variable {r} [Std.Total r] [IsTrans α r] [Std.Antisymm r]

theorem sortDedup_eq_dedup (xs : List α) : sortDedup r xs = (xs.insertionSort r).dedup :=
  (pairwise_insertionSort r xs).destutter_eq_dedup

theorem mem_sortDedup {xs : List α} {x : α} : x ∈ sortDedup r xs ↔ x ∈ xs := by
  rw [sortDedup_eq_dedup, mem_dedup, mem_insertionSort]

theorem nodup_sortDedup (xs : List α) : (sortDedup r xs).Nodup := by
  rw [sortDedup_eq_dedup]
  exact nodup_dedup _

theorem pairwise_sortDedup (xs : List α) : (sortDedup r xs).Pairwise fun a b => r a b ∧ a ≠ b :=
  ((pairwise_insertionSort r xs).sublist (destutter_sublist _ _)).and (nodup_sortDedup xs)

theorem sortDedup_of_pairwise {xs : List α} (h : xs.Pairwise fun a b => r a b ∧ a ≠ b) :
    sortDedup r xs = xs := by
  obtain ⟨hsorted, hnodup⟩ := pairwise_and_iff.mp h
  rw [sortDedup_eq_dedup, hsorted.insertionSort_eq]
  exact List.Nodup.dedup hnodup

/-! ### Sorting by a key -/

section

variable {α κ : Type} [LinearOrder κ]

/-- Sort by a key; elements with equal keys stay in their order. -/
def sortBy (key : α → κ) (xs : List α) : List α := xs.mergeSort fun a b => decide (key a ≤ key b)

theorem perm_sortBy (key : α → κ) (xs : List α) : (sortBy key xs).Perm xs := mergeSort_perm _ _

theorem pairwise_sortBy (key : α → κ) (xs : List α) :
    (sortBy key xs).Pairwise fun a b => key a ≤ key b := by
  have hsorted : (sortBy key xs).Pairwise fun a b => decide (key a ≤ key b) = true := by
    apply pairwise_mergeSort
    · intro a b c hab hbc
      exact decide_eq_true ((of_decide_eq_true hab).trans (of_decide_eq_true hbc))
    · intro a b
      rw [Bool.or_eq_true, decide_eq_true_iff, decide_eq_true_iff]
      exact le_total _ _
  exact hsorted.imp of_decide_eq_true

/-- Sorting positions by what stands there and taking that is sorting the elements. -/
theorem filterMap_sortBy_range {key : α → κ} {position : ℕ → κ} {xs : List α}
    (h : ∀ i a, xs[i]? = some a → position i = key a) :
    (sortBy position (range xs.length)).filterMap (xs[·]?) = sortBy key xs := by
  have hmap : (sortBy position (range xs.length)).map (xs[·]?) = (sortBy key xs).map some := by
    -- both are the sorted list of the elements, each as an option
    have hall : (range xs.length).map (xs[·]?) = xs.map some := by
      apply ext_getElem <;> simp
    let before (x y : Option α) : Bool := x.elim false fun a => y.elim false fun b => key a ≤ key b
    have hposition := @map_mergeSort _ _ (fun i j => decide (position i ≤ position j)) before
      (xs[·]?) (range xs.length) fun i hi j hj => by
        have hi := getElem?_eq_getElem (mem_range.mp hi)
        have hj := getElem?_eq_getElem (mem_range.mp hj)
        rw [hi, hj, h i _ hi, h j _ hj]
        rfl
    rw [sortBy, hposition, hall]
    exact (@map_mergeSort _ _ (fun a b => decide (key a ≤ key b)) before some xs
      fun _ _ _ _ => rfl).symm
  have hreduce := congrArg (filterMap id) hmap
  rwa [filterMap_map, filterMap_map, Function.id_comp, Function.id_comp, filterMap_some] at hreduce

/-- The keys alone determine where elements go that differ in them. -/
theorem sortBy_eq_of_perm {key : α → κ} {xs ys : List α} (h : xs.Perm ys)
    (hkeys : ∀ a ∈ xs, ∀ b ∈ xs, key a = key b → a = b) : sortBy key xs = sortBy key ys := by
  have hperm := (perm_sortBy key xs).trans (h.trans (perm_sortBy key ys).symm)
  refine List.Perm.eq_of_pairwise ?_ (pairwise_sortBy key xs) (pairwise_sortBy key ys) hperm
  intro a b ha hb hab hba
  apply hkeys a ((perm_sortBy key xs).mem_iff.mp ha) b
  · exact h.mem_iff.mpr ((perm_sortBy key ys).mem_iff.mp hb)
  · exact le_antisymm hab hba

/-- A sorted list that has an element twice has it twice in a row. -/
theorem nodup_iff_isChain {key : α → κ} (hkey : Function.Injective key) {xs : List α}
    (h : xs.Pairwise fun a b => key a ≤ key b) : xs.Nodup ↔ xs.IsChain (· ≠ ·) := by
  refine ⟨List.Pairwise.isChain, fun hchain => ?_⟩
  induction xs with
  | nil => exact .nil
  | cons a xs ih =>
    obtain ⟨hle, hrest⟩ := pairwise_cons.mp h
    refine nodup_cons.mpr ⟨fun ha => ?_, ih hrest (isChain_of_isChain_cons hchain)⟩
    cases xs with
    | nil => cases ha
    | cons b xs =>
      -- what equals the first element lies behind the second, which is not smaller
      have hba : key b ≤ key a := by
        rcases mem_cons.mp ha with rfl | ha
        · exact le_rfl
        · exact (pairwise_cons.mp hrest).1 a ha
      have hab := le_antisymm (hle b mem_cons_self) hba
      exact (isChain_cons_cons.mp hchain).1 (hkey hab)

end

end ClawHdf5.SortDedup
