import ClawHdf5.Math.Overwrite

/-!
# Regions of a file

A byte string stands at a position of a file when the file contains it from there on. A writer
that lays objects out one after another puts each at a known position, and a reader that is
handed the position reads the object back whatever surrounds it.
-/

namespace ClawHdf5

open List

variable {α β : Type*}
variable {f : β → List α} {xs : List β} {b : β}

/-- `bs` is what `file` holds from position `pos` on. -/
def StandsAt (file : List α) (pos : ℕ) (bs : List α) : Prop :=
  ∃ before after, file = before ++ bs ++ after ∧ before.length = pos

variable {file bs cs : List α} {pos i : ℕ}

theorem standsAt_self (bs : List α) : StandsAt bs 0 bs := ⟨[], [], by simp, rfl⟩

namespace StandsAt

section

variable (h : StandsAt file pos bs)
include h

theorem le : pos + bs.length ≤ file.length := by
  obtain ⟨before, after, rfl, rfl⟩ := h
  simp only [length_append]
  omega

theorem drop_eq : ∃ after, file.drop pos = bs ++ after := by
  obtain ⟨before, after, rfl, rfl⟩ := h
  exact ⟨after, by rw [append_assoc, drop_left]⟩

theorem take_drop : (file.drop pos).take bs.length = bs := by
  obtain ⟨after, hdrop⟩ := h.drop_eq
  rw [hdrop, take_left]

theorem trans (hc : StandsAt bs i cs) : StandsAt file (pos + i) cs := by
  obtain ⟨before, after, rfl, rfl⟩ := h
  obtain ⟨before', after', rfl, rfl⟩ := hc
  refine ⟨before ++ before', after' ++ after, ?_, length_append⟩
  simp

theorem getElem?_add (hi : i < bs.length) : file[pos + i]? = bs[i]? := by
  obtain ⟨before, after, rfl, rfl⟩ := h
  rw [append_assoc, getElem?_append_right (Nat.le_add_right _ _),
    Nat.add_sub_cancel_left, getElem?_append_left hi]

end

end StandsAt

/-- Consecutive objects stand at consecutive positions. -/
theorem standsAt_append {xs ys : List α} : StandsAt file pos (xs ++ ys) ↔
      StandsAt file pos xs ∧ StandsAt file (pos + xs.length) ys := by
  constructor
  · rintro ⟨before, after, rfl, rfl⟩
    refine ⟨⟨before, ys ++ after, by simp only [append_assoc], rfl⟩, ?_⟩
    exact ⟨before ++ xs, after, by simp, length_append⟩
  · rintro ⟨⟨before, after, rfl, rfl⟩, hys⟩
    obtain ⟨after', hdrop⟩ := hys.drop_eq
    -- what stands behind `xs` begins with `ys`
    rw [← length_append, drop_left] at hdrop
    exact ⟨before, after', by rw [hdrop]; simp, rfl⟩

theorem standsAt_flatMap (hi : xs[i]? = some b) :
    StandsAt (xs.flatMap f) ((xs.take i).flatMap f).length (f b) := by
  obtain ⟨hlt, rfl⟩ := List.getElem?_eq_some_iff.mp hi
  refine ⟨(xs.take i).flatMap f, (xs.drop (i + 1)).flatMap f, ?_, rfl⟩
  rw [append_assoc, ← flatMap_cons, ← drop_eq_getElem_cons hlt, ← flatMap_append, take_append_drop]

/-- One slot of a run of equally wide slots. -/
theorem StandsAt.slot_mem {w : ℕ} (hf : ∀ b ∈ xs, (f b).length = w)
    (h : StandsAt file pos (xs.flatMap f)) (hi : xs[i]? = some b) :
    StandsAt file (pos + i * w) (f b) := by
  have hlt := (List.getElem?_eq_some_iff.mp hi).1
  have hslot := h.trans (standsAt_flatMap hi)
  have hwidths : (xs.take i).map (fun b => (f b).length) = replicate i w := by
    rw [map_congr_left fun b hb => hf b (mem_of_mem_take hb), map_const',
      length_take_of_le (Nat.le_of_lt hlt)]
  rwa [length_flatMap, hwidths, sum_replicate_nat] at hslot

theorem StandsAt.slot {w : ℕ} (hf : ∀ b, (f b).length = w) (h : StandsAt file pos (xs.flatMap f))
    (hi : xs[i]? = some b) :
    StandsAt file (pos + i * w) (f b) := h.slot_mem (fun b _ => hf b) hi

end ClawHdf5
