import ClawHdf5.Math.SortDedup
import Mathlib.Data.Prod.Lex

/-!
# Overlapping mentions of entities

Candidates are sorted by where they start and taken one after the other, as long as they overlap
nothing taken before. What starts first is therefore kept, also against a later candidate of higher
confidence: confidences decide only between candidates that start at one place.
-/

namespace ClawHdf5.Agent

open List SortDedup

inductive ExtractedEntityType
  | person | organization | location | date | technology | project
  | custom (name : String)
  deriving DecidableEq

structure ExtractedEntity (κ : Type) where
  text : String
  entityType : ExtractedEntityType
  startOffset : ℕ
  endOffset : ℕ
  confidence : κ
  deriving DecidableEq

namespace ExtractedEntity

variable {κ : Type} [LinearOrder κ] {a b : ExtractedEntity κ}

def Overlaps (a b : ExtractedEntity κ) : Prop :=
  a.startOffset < b.endOffset ∧ b.startOffset < a.endOffset
  deriving Decidable

/-- Earlier starts come first, and of equal starts the higher confidence. -/
def sortKey (a : ExtractedEntity κ) : ℕ ×ₗ κᵒᵈ :=
  toLex (a.startOffset, OrderDual.toDual a.confidence)

def dedupOverlapping (entities : List (ExtractedEntity κ)) : List (ExtractedEntity κ) :=
  entities.foldl (fun result entity =>
    if result.any (·.Overlaps entity) then result else result ++ [entity]) []

/-- The last steps of `extract`. -/
def resolve (candidates : List (ExtractedEntity κ)) : List (ExtractedEntity κ) :=
  dedupOverlapping (sortBy sortKey candidates)

/-- Some of the candidates are kept, apart from each other, and one that is dropped overlaps a kept
one of at least its confidence. -/
def KeepsStronger (candidates : List (ExtractedEntity κ)) : Prop :=
  resolve candidates <+~ candidates ∧ (resolve candidates).Pairwise (¬ ·.Overlaps ·) ∧
  ∀ e, (resolve candidates).count e < candidates.count e →
    ∃ kept ∈ resolve candidates, kept.Overlaps e ∧ e.confidence ≤ kept.confidence

theorem dedupOverlapping_spec {l : List (ExtractedEntity κ)}
    (hl : l.Pairwise fun a b => a.sortKey ≤ b.sortKey) :
    dedupOverlapping l <+ l ∧ (dedupOverlapping l).Pairwise (¬ ·.Overlaps ·) ∧
    ∀ e, (dedupOverlapping l).count e < l.count e →
      ∃ kept ∈ dedupOverlapping l, kept.Overlaps e ∧ kept.sortKey ≤ e.sortKey := by
  induction l using List.reverseRecOn with
  | nil => simp [dedupOverlapping]
  | append_singleton l x ih =>
    obtain ⟨hl, -, hx⟩ := pairwise_append.mp hl
    obtain ⟨hsub, hapart, hdropped⟩ := ih hl
    have hstep : dedupOverlapping (l ++ [x]) = if (dedupOverlapping l).any (·.Overlaps x)
        then dedupOverlapping l else dedupOverlapping l ++ [x] := by
      rw [dedupOverlapping, foldl_append]
      rfl
    rw [hstep]
    split_ifs with hany
    · refine ⟨hsub.trans (sublist_append_left l [x]), hapart, fun e he => ?_⟩
      by_cases hex : e = x
      · obtain ⟨kept, hkept, hover⟩ := any_eq_true.mp hany
        rw [hex]
        exact ⟨kept, hkept, by simpa using hover, hx kept (hsub.subset hkept) x (by simp)⟩
      · exact hdropped e (by simpa [count_singleton, Ne.symm hex] using he)
    · refine ⟨hsub.append (.refl _), pairwise_append.mpr ⟨hapart, by simp, ?_⟩, fun e he => ?_⟩
      · simpa using hany
      · rw [count_append, count_append] at he
        obtain ⟨kept, hkept, h⟩ := hdropped e (by omega)
        exact ⟨kept, mem_append_left _ hkept, h⟩

theorem sortKey_le_iff : a.sortKey ≤ b.sortKey ↔
    a.startOffset < b.startOffset ∨
      a.startOffset = b.startOffset ∧ b.confidence ≤ a.confidence := by
  rw [sortKey, sortKey, Prod.Lex.toLex_le_toLex, OrderDual.toDual_le_toDual]

theorem not_keepsStronger_pair (hover : a.Overlaps b) (hstart : a.startOffset < b.startOffset)
    (hlt : a.confidence < b.confidence) : ¬ KeepsStronger [a, b] := by
  have hsorted : sortBy sortKey [a, b] = [a, b] := by
    apply mergeSort_of_pairwise
    simpa using sortKey_le_iff.mpr (.inl hstart)
  have hresolve : resolve [a, b] = [a] := by simp [resolve, hsorted, dedupOverlapping, hover]
  intro ⟨_, _, hdropped⟩
  have hne : a ≠ b := fun h => hstart.ne (congrArg _ h)
  obtain ⟨kept, hkept, -, hle⟩ := hdropped b (by simp [hresolve, hne])
  rw [hresolve, mem_singleton] at hkept
  exact hlt.not_ge (hkept ▸ hle)

/-- Of all lists of the candidates the stronger are kept, exactly if no candidate overlaps a
weaker one that starts before it. -/
theorem keepsStronger_iff (candidates : List (ExtractedEntity κ)) :
    (∀ c, c ⊆ candidates → KeepsStronger c) ↔ ∀ a ∈ candidates, ∀ b ∈ candidates, a.Overlaps b →
      a.startOffset < b.startOffset → b.confidence ≤ a.confidence := by
  constructor
  · intro h a ha b hb hover hstart
    by_contra hlt
    exact not_keepsStronger_pair hover hstart (not_le.mp hlt) (h _ (by simp [ha, hb]))
  · intro h c hc
    have hperm := perm_sortBy sortKey c
    obtain ⟨hsub, hapart, hdropped⟩ := dedupOverlapping_spec (pairwise_sortBy sortKey c)
    refine ⟨hsub.subperm.trans hperm.subperm, hapart, fun e he => ?_⟩
    obtain ⟨kept, hkept, hover, hkey⟩ := hdropped e (by rwa [hperm.count_eq])
    refine ⟨kept, hkept, hover, ?_⟩
    rcases sortKey_le_iff.mp hkey with hstart | ⟨-, hle⟩
    · have hin : kept ∈ c := hperm.mem_iff.mp (hsub.subset hkept)
      have hmem : e ∈ c := count_pos_iff.mp (Nat.zero_lt_of_lt he)
      exact h kept (hc hin) e (hc hmem) hover hstart
    · exact hle

/-- A weak mention at 0 to 10 wins over a stronger one at 5 to 15. -/
theorem resolve_keeps_weaker :
    ¬ KeepsStronger [⟨"a", .person, 0, 10, 1⟩, ⟨"b", .person, 5, 15, 2⟩] :=
  not_keepsStronger_pair (by decide) (by decide) (by decide)

end ExtractedEntity

end ClawHdf5.Agent
