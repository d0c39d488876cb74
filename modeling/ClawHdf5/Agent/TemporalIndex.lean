import ClawHdf5.Math.BinarySearch
import Mathlib.Data.List.Induction
import Mathlib.Data.Prod.Lex

/-!
# The temporal index

Records are kept in the order of their timestamps, then identifiers, and queries are slices between
binary searches. A range whose ends are reversed is not always empty: its slice starts behind its
end when a record lies strictly between the two.
-/

namespace ClawHdf5.Agent

open List BinarySearch

variable {α : Type*} [LinearOrder α]

/-- Timestamps with record identifiers, in ascending order. -/
structure TemporalIndex (α : Type*) [LinearOrder α] where
  entries : List (α ×ₗ ℕ)
  sorted : entries.Pairwise (· ≤ ·)

namespace TemporalIndex

def timestamp (x : α ×ₗ ℕ) : α := (ofLex x).1

theorem timestamp_mono : Monotone (@timestamp α) := Prod.Lex.monotone_fst

def recordId (x : α ×ₗ ℕ) : ℕ := (ofLex x).2

variable (index : TemporalIndex α)

def insert (id : ℕ) (timestamp : α) : TemporalIndex α where
  entries := index.entries.insertIdx
    (partitionPoint (· < toLex (timestamp, id)) index.entries) (toLex (timestamp, id))
  sorted := by
    rw [insertIdx_partitionPoint _ index.sorted]
    exact index.sorted.orderedInsert _ _

def remove (id : ℕ) : TemporalIndex α where
  entries := index.entries.filter (recordId · ≠ id)
  sorted := index.sorted.filter _

/-- The slice panics if it starts behind its end. -/
def rangeQuery (startTs endTs : α) : Option (List ℕ) :=
  let lo := partitionPoint (timestamp · < startTs) index.entries
  let hi := partitionPoint (timestamp · ≤ endTs) index.entries
  if lo ≤ hi then some (((index.entries.take hi).drop lo).map recordId) else none

def latest (n : ℕ) : List ℕ := (index.entries.reverse.take n).map recordId

def earliest (n : ℕ) : List ℕ := (index.entries.take n).map recordId

def before (ts : α) (n : ℕ) : List ℕ :=
  let hi := partitionPoint (timestamp · < ts) index.entries
  ((index.entries.take hi).reverse.take n).map recordId

def after (ts : α) (n : ℕ) : List ℕ :=
  let lo := partitionPoint (timestamp · ≤ ts) index.entries
  ((index.entries.drop lo).take n).map recordId

/-- The calls that change an index. -/
inductive Call (α : Type*)
  | insert (id : ℕ) (timestamp : α)
  | remove (id : ℕ)

def run (calls : List (Call α)) : TemporalIndex α :=
  calls.foldl (fun index => fun
    | .insert id timestamp => index.insert id timestamp
    | .remove id => index.remove id) ⟨[], .nil⟩

/-- The records that a history of calls leaves, latest first. -/
def liveRecords (calls : List (Call α)) : List (α ×ₗ ℕ) :=
  calls.foldl (fun live => fun
    | .insert id timestamp => toLex (timestamp, id) :: live
    | .remove id => live.filter (recordId · ≠ id)) []

theorem entries_run (calls : List (Call α)) :
    (run calls).entries = (liveRecords calls).insertionSort (· ≤ ·) := by
  refine Perm.eq_of_pairwise' (run calls).sorted (pairwise_insertionSort _ _)
    (.trans ?_ (perm_insertionSort _ _).symm)
  induction calls using List.reverseRecOn with
  | nil => rfl
  | append_singleton calls call ih =>
    rw [run, liveRecords, foldl_append, foldl_append]
    cases call with
    | insert id timestamp =>
      refine .trans ?_ (ih.cons _)
      exact .trans (.of_eq (insertIdx_partitionPoint _ (run calls).sorted))
        (perm_orderedInsert _ _ _)
    | remove id => exact ih.filter _

section

variable {s e t : α}

theorem pairwise_lt :
    index.entries.Pairwise fun x y => decide (timestamp y < t) → decide (timestamp x < t) :=
  index.sorted.imp fun h => by simpa using (timestamp_mono h).trans_lt

theorem pairwise_le :
    index.entries.Pairwise fun x y => decide (timestamp y ≤ t) → decide (timestamp x ≤ t) :=
  index.sorted.imp fun h => by simpa using (timestamp_mono h).trans

theorem rangeQuery_eq_iff :
    index.rangeQuery s e = some
        ((index.entries.filter fun x => s ≤ timestamp x ∧ timestamp x ≤ e).map recordId) ↔
      ∀ x ∈ index.entries, ¬ (e < timestamp x ∧ timestamp x < s) := by
  have hlo := partitionPoint_le_iff (@pairwise_lt _ _ index s) (@pairwise_le _ _ index e)
  rw [rangeQuery]
  split_ifs with h
  · have hslice := drop_take_partitionPoint index.pairwise_lt index.pairwise_le (hlo.mp h)
    refine iff_of_true ?_ fun x hx hes => ?_
    · simp [hslice, ← decide_not]
    · exact hes.1.not_ge (by simpa [hes.2] using hlo.mp h x hx)
  · refine iff_of_false (by simp) fun hall => h (hlo.mpr fun x hx => ?_)
    simpa using fun hs => not_lt.mp fun he => hall x hx ⟨he, hs⟩

end

/-- Queries answer from the live records in their order, exactly if no record lies strictly between
the ends of a reversed range. -/
theorem queries_correct_iff (calls : List (Call α)) (s e t : α) (n : ℕ) :
    let live := (liveRecords calls).insertionSort (· ≤ ·)
    ((run calls).rangeQuery s e =
        some ((live.filter fun x => s ≤ timestamp x ∧ timestamp x ≤ e).map recordId) ∧
      (run calls).before t n = ((live.filter (timestamp · < t)).reverse.take n).map recordId ∧
      (run calls).after t n = ((live.filter (t < timestamp ·)).take n).map recordId ∧
      (run calls).latest n = (live.reverse.take n).map recordId ∧
      (run calls).earliest n = (live.take n).map recordId) ↔
    ∀ x ∈ liveRecords calls, ¬ (e < timestamp x ∧ timestamp x < s) := by
  have hmem (x) : x ∈ liveRecords calls ↔ x ∈ (run calls).entries := by simp [entries_run]
  simp only [← entries_run, hmem]
  refine .trans (and_iff_left ⟨?_, ?_, rfl, rfl⟩) (run calls).rangeQuery_eq_iff
  · rw [before, (split_partitionPoint (run calls).pairwise_lt).1]
  · simp only [after, (split_partitionPoint (run calls).pairwise_le).2, ← decide_not, not_le]

/-- A record at 5 lies between the ends of a range from 10 to 1. -/
theorem rangeQuery_reversed :
    (run [.insert 1 5]).rangeQuery 10 1 = none := by decide

end TemporalIndex

end ClawHdf5.Agent
