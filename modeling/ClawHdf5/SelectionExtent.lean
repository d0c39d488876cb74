import ClawHdf5.Math.Strided
import ClawHdf5.Selection

/-!
# Which chunks a selection meets

The test whether a chunk meets a hyperslab compares the chunk with the extent of the hyperslab on
each axis, from the start to the end of the last block. It is exact unless the extents meet on every
axis and on some axis the chunk or the hyperslab is empty, or the chunk lies between two blocks.
-/

namespace ClawHdf5

open Fallible MachineInt Strided List UInt64

variable {ε : Type}

/-- An element of the chunk at `offset` of extent `dims`. -/
def InChunk (offset dims e : List UInt64) : Prop :=
  e.length = offset.length ∧ ∀ d < e.length,
    (offset.getD d 0).toNat ≤ (e.getD d 0).toNat ∧
      (e.getD d 0).toNat < (offset.getD d 0).toNat + (dims.getD d 0).toNat

/-- The end of a chunk fits a word on each axis. -/
def ChunkFits (offset dims : List UInt64) : Prop :=
  ∀ d < offset.length, (offset.getD d 0).toNat + (dims.getD d 0).toNat < 2 ^ 64

instance (offset dims : List UInt64) : Decidable (ChunkFits offset dims) :=
  inferInstanceAs (Decidable (∀ d < _, _))

namespace Selection

section

variable (start stride count block offset dims : List UInt64)

def axisBlocks (d : ℕ) : Blocks where
  first := (start.getD d 0).toNat
  step := (stride.getD d 0).toNat
  count := (count.getD d 0).toNat
  width := (block.getD d 0).toNat

/-- The chunk meets the extent of the blocks on axis `d`. The extent ends at the largest word at
the latest. -/
def AxisTouches (d : ℕ) : Prop :=
  (axisBlocks start stride count block d).first < (offset.getD d 0).toNat + (dims.getD d 0).toNat ∧
    (offset.getD d 0).toNat < min (axisBlocks start stride count block d).stop (2 ^ 64 - 1)
  deriving Decidable

/-- On axis `d` neither the chunk nor the hyperslab is empty, and the chunk is not in a gap. -/
def AxisResolved (d : ℕ) : Prop :=
  0 < (dims.getD d 0).toNat ∧ 0 < (axisBlocks start stride count block d).count ∧
    0 < (axisBlocks start stride count block d).width ∧
    ¬ (axisBlocks start stride count block d).InGap (offset.getD d 0).toNat
      ((offset.getD d 0).toNat + (dims.getD d 0).toNat)
  deriving Decidable

end

/-- The inputs on which comparing extents is enough. -/
def Resolved (offset dims : List UInt64) : Selection → Prop
  | .all => ∀ d < offset.length, 0 < (dims.getD d 0).toNat
  | .none | .points _ => True
  | .hyperslab start stride count block =>
    (∃ d < start.length, ¬ AxisTouches start stride count block offset dims d) ∨
      ∀ d < start.length, AxisResolved start stride count block offset dims d

instance (offset dims : List UInt64) (sel : Selection) : Decidable (sel.Resolved offset dims) :=
  match sel with
  | .all => inferInstanceAs (Decidable (∀ d < _, _))
  | .none => isTrue trivial
  | .points _ => isTrue trivial
  | .hyperslab _ _ _ _ => inferInstanceAs (Decidable ((∃ d < _, _) ∨ ∀ d < _, _))

/-! ### One axis -/

section

variable {start stride count block offset dims : List UInt64} {n d : ℕ}

theorem toNat_saturatingEnd {first step width c : UInt64} (hc : c ≠ 0) :
    (saturatingAdd first (saturatingAdd (saturatingMul (c - 1) step) width)).toNat =
      min (Blocks.stop ⟨first.toNat, step.toNat, c.toNat, width.toNat⟩) (2 ^ 64 - 1) := by
  have hpos : c.toNat ≠ 0 := fun h0 => hc (UInt64.toNat_inj.mp h0)
  rw [Blocks.stop, if_neg hpos]
  simp only [toNat_saturatingAdd, toNat_saturatingMul, toNat_sub_one hc]
  omega

/-- The comparison on one axis, in exact numbers. -/
theorem axisOverlaps_eq (hrank : (hyperslab start stride count block).HasRank n)
    (hoffset : offset.length = n) (hdims : dims.length = n) (hd : d < n)
    (hfits : (offset.getD d 0).toNat + (dims.getD d 0).toNat < 2 ^ 64) :
    (axisOverlaps start stride count block offset dims d : Except (Halt ε) Bool) =
      .ok (decide (AxisTouches start stride count block offset dims d)) := by
  obtain ⟨hstart, hstride, hcount, hblock⟩ := hrank
  have hread : ∀ {l : List UInt64}, l.length = n →
      (index l d : Except (Halt ε) UInt64) = .ok (l.getD d 0) := by
    intro l hl
    exact index_eq_ok.mpr (getElem?_eq_getD (hl.symm ▸ hd))
  have hend : (offset.getD d 0 + dims.getD d 0).toNat =
      (offset.getD d 0).toNat + (dims.getD d 0).toNat := toNat_add_of_lt hfits
  simp only [axisOverlaps, hread hoffset, hread hdims, hread hstart, hread hcount, hread hstride,
    hread hblock, ok_bind]
  by_cases hc : count.getD d 0 = 0
  · -- an axis without blocks ends where it starts
    have hnone : (axisBlocks start stride count block d).count = 0 := congrArg toNat hc
    rw [if_pos hc, Except.ok.injEq, Bool.eq_iff_iff, decide_eq_true_eq, AxisTouches, Blocks.stop,
      if_pos hnone]
    simp only [Bool.not_eq_true', Bool.or_eq_false_iff, decide_eq_false_iff_not,
      le_iff_toNat_le, axisBlocks]
    omega
  · have hstop : _ = min (axisBlocks start stride count block d).stop _ :=
      @toNat_saturatingEnd (start.getD d 0) (stride.getD d 0) (block.getD d 0) _ hc
    rw [if_neg hc, Except.ok.injEq, Bool.eq_iff_iff, decide_eq_true_eq, AxisTouches, ← hstop]
    simp only [Bool.not_eq_true', Bool.or_eq_false_iff, decide_eq_false_iff_not,
      le_iff_toNat_le, hend, axisBlocks, not_le]

/-- A chunk holds a number of the blocks on one axis. -/
theorem exists_mem_axis_iff (hfits : (offset.getD d 0).toNat + (dims.getD d 0).toNat < 2 ^ 64) :
    (∃ x, (offset.getD d 0).toNat ≤ x ∧ x < (offset.getD d 0).toNat + (dims.getD d 0).toNat ∧
        (axisBlocks start stride count block d).Mem x) ↔
      AxisTouches start stride count block offset dims d ∧
        AxisResolved start stride count block offset dims d := by
  rw [Blocks.exists_mem_iff, AxisTouches, AxisResolved, Blocks.Touches, lt_min_iff]
  constructor
  · intro h
    obtain ⟨hdim, hcount, hwidth, ⟨hfirst, hstop⟩, hgap⟩ := h
    exact ⟨⟨hfirst, hstop, by omega⟩, by omega, hcount, hwidth, hgap⟩
  · intro h
    obtain ⟨⟨hfirst, hstop, -⟩, hdim, hcount, hwidth, hgap⟩ := h
    exact ⟨by omega, hcount, hwidth, ⟨hfirst, hstop⟩, hgap⟩

end

/-! ### All axes -/

section

variable {start stride count block offset dims : List UInt64} {n : ℕ}

/-- An element is chosen on each axis by itself. -/
theorem exists_inChunk_iff {P : ℕ → ℕ → Prop} (hoffset : offset.length = n)
    (hfits : ChunkFits offset dims) :
    (∃ e, (e.length = n ∧ ∀ d < e.length, P d (e.getD d 0).toNat) ∧ InChunk offset dims e) ↔
      ∀ d < n, ∃ x, (offset.getD d 0).toNat ≤ x ∧
        x < (offset.getD d 0).toNat + (dims.getD d 0).toNat ∧ P d x := by
  rw [← exists_words_iff fun d hd x hx => hx.2.1.trans (hfits d (hoffset.symm ▸ hd))]
  refine exists_congr fun e => ?_
  rw [InChunk, hoffset]
  constructor
  · intro h
    obtain ⟨⟨hlen, hall⟩, -, hin⟩ := h
    rw [hlen] at hall hin
    exact ⟨hlen, fun d hd => ⟨(hin d hd).1, (hin d hd).2, hall d hd⟩⟩
  · intro h
    obtain ⟨hlen, hall⟩ := h
    rw [hlen]
    exact ⟨⟨rfl, fun d hd => (hall d hd).2.2⟩, rfl, fun d hd => ⟨(hall d hd).1, (hall d hd).2.1⟩⟩

section

variable (hrank : (hyperslab start stride count block).HasRank n) (hoffset : offset.length = n)
include hrank hoffset

theorem exists_selects_hyperslab_iff (hfits : ChunkFits offset dims) :
    (∃ e, (hyperslab start stride count block).Selects e ∧ InChunk offset dims e) ↔
      ∀ d < n, AxisTouches start stride count block offset dims d ∧
        AxisResolved start stride count block offset dims d := by
  have hselects : ∀ e, (hyperslab start stride count block).Selects e ↔
      e.length = n ∧ ∀ d < e.length,
        (axisBlocks start stride count block d).Mem (e.getD d 0).toNat := by
    intro e
    rw [Selects, hrank.1]
    rfl
  simp only [hselects]
  refine (exists_inChunk_iff hoffset hfits).trans (forall₂_congr fun d hd => ?_)
  exact exists_mem_axis_iff (hfits d (hoffset.symm ▸ hd))

/-- The test on a hyperslab compares extents on each axis. -/
theorem intersectsChunk_hyperslab (hdims : dims.length = n) (hfits : ChunkFits offset dims) :
    ((hyperslab start stride count block).intersectsChunk offset dims :
        Except (Halt ε) Bool) = .ok true ↔
      ∀ d < n, AxisTouches start stride count block offset dims d := by
  rw [intersectsChunk, every_eq_ok_true, hrank.1]
  simp only [mem_range]
  refine forall₂_congr fun d hd => ?_
  rw [axisOverlaps_eq hrank hoffset hdims hd (hfits d (hoffset.symm ▸ hd)), Except.ok.injEq,
    decide_eq_true_iff]

end

/-- The test on points looks for one of them in the chunk. -/
theorem intersectsChunk_points {pts : List (List UInt64)} (hrank : (points pts).HasRank n)
    (hoffset : offset.length = n) (hdims : dims.length = n) (hfits : ChunkFits offset dims) :
    ((points pts).intersectsChunk offset dims : Except (Halt ε) Bool) = .ok true ↔
      ∃ e ∈ pts, InChunk offset dims e := by
  simp only [intersectsChunk, Except.ok.injEq, any_eq_true, all_eq_true,
    Bool.and_eq_true, decide_eq_true_eq]
  refine exists_congr fun e => and_congr_right fun he => ?_
  have hlen : e.length = n := hrank e he
  have hend : ∀ d, d < n → (offset.getD d 0 + dims.getD d 0).toNat =
      (offset.getD d 0).toNat + (dims.getD d 0).toNat :=
    fun d hd => toNat_add_of_lt (hfits d (hoffset.symm ▸ hd))
  constructor
  · intro h
    refine ⟨hlen.trans hoffset.symm, fun d hd => ?_⟩
    rw [hlen] at hd
    have hmem : (e.getD d 0, offset.getD d 0, dims.getD d 0) ∈ e.zip (offset.zip dims) := by
      apply mem_of_getElem? (i := d)
      rw [getElem?_zip_eq_some, getElem?_zip_eq_some]
      exact ⟨getElem?_eq_getD (hlen.symm ▸ hd), getElem?_eq_getD (hoffset.symm ▸ hd),
        getElem?_eq_getD (hdims.symm ▸ hd)⟩
    obtain ⟨hlo, hhi⟩ := h _ hmem
    rw [lt_iff_toNat_lt, hend d hd] at hhi
    exact ⟨le_iff_toNat_le.mp hlo, hhi⟩
  · intro h z hz
    obtain ⟨d, hd⟩ := mem_iff_getElem?.mp hz
    rw [getElem?_zip_eq_some, getElem?_zip_eq_some] at hd
    obtain ⟨hp, ho, hs⟩ := hd
    have hdn : d < n := hlen ▸ lt_of_getElem? hp
    obtain ⟨hlo, hhi⟩ := h.2 d (hlen.symm ▸ hdn)
    rw [← hend d hdn] at hhi
    simp only [getD_eq_getElem?_getD, hp, ho, hs] at hlo hhi
    exact ⟨le_iff_toNat_le.mpr hlo, lt_iff_toNat_lt.mpr hhi⟩

end

/-- The test returns, and it says whether the chunk holds a selected element exactly on the inputs
on which comparing extents is enough. -/
theorem intersectsChunk_exact_iff {sel : Selection} {offset dims : List UInt64} {n : ℕ}
    (hrank : sel.HasRank n) (hoffset : offset.length = n) (hdims : dims.length = n)
    (hfits : ChunkFits offset dims) :
    (∃ b, (sel.intersectsChunk offset dims : Except (Halt ε) Bool) = .ok b) ∧
      (((sel.intersectsChunk offset dims : Except (Halt ε) Bool) = .ok true ↔
          ∃ e, sel.Selects e ∧ InChunk offset dims e) ↔ sel.Resolved offset dims) := by
  cases sel with
  | all =>
    refine ⟨⟨true, rfl⟩, ?_⟩
    have hchoose := exists_inChunk_iff (P := fun _ _ => True) hoffset hfits
    have hempty : (∃ e, Selects .all e ∧ InChunk offset dims e) ↔
        ∀ d < n, 0 < (dims.getD d 0).toNat := by
      refine Iff.trans ?_ (hchoose.trans (forall₂_congr fun d _ => ?_))
      · refine exists_congr fun e => and_congr_left fun he => ?_
        exact iff_of_true trivial ⟨he.1.trans hoffset, fun _ _ => trivial⟩
      · constructor
        · intro hx
          omega
        · exact fun hpos => ⟨_, le_rfl, by omega, trivial⟩
    rw [hempty, Resolved, hoffset]
    exact iff_true_left rfl
  | none =>
    refine ⟨⟨false, rfl⟩, iff_of_true ?_ trivial⟩
    exact iff_of_false (fun h => Bool.false_ne_true (Except.ok.inj h)) fun h => h.choose_spec.1
  | points pts =>
    exact ⟨⟨_, rfl⟩, iff_of_true (intersectsChunk_points hrank hoffset hdims hfits) trivial⟩
  | hyperslab start stride count block =>
    refine ⟨every_ok fun d hd => ?_, ?_⟩
    · have hdn : d < n := hrank.1 ▸ mem_range.mp hd
      exact ⟨_, axisOverlaps_eq hrank hoffset hdims hdn (hfits d (hoffset.symm ▸ hdn))⟩
    · rw [intersectsChunk_hyperslab hrank hoffset hdims hfits,
        exists_selects_hyperslab_iff hrank hoffset hfits, Resolved, hrank.1]
      by_cases hall : ∀ d < n, AxisTouches start stride count block offset dims d
      · have hnone : ¬ ∃ d < n, ¬ AxisTouches start stride count block offset dims d := by
          intro h
          obtain ⟨d, hd, hapart⟩ := h
          exact hapart (hall d hd)
        rw [or_iff_right hnone, iff_true_left hall]
        exact ⟨fun h d hd => (h d hd).2, fun h d hd => ⟨hall d hd, h d hd⟩⟩
      · refine iff_of_true (iff_of_false hall fun h => hall fun d hd => (h d hd).1) (.inl ?_)
        by_contra hnone
        exact hall fun d hd => by_contra fun hapart => hnone ⟨d, hd, hapart⟩

/-- Two numbers in ten, twice. -/
def twoInTen : Selection := .hyperslab [0] [10] [2] [2]

/-- The test is exact on a chunk that reaches the second block, and not on one between the two. -/
theorem intersectsChunk_exact_twoInTen :
    ((twoInTen.intersectsChunk [8] [4] : Except (Halt Unit) Bool) = .ok true ↔
        ∃ e, twoInTen.Selects e ∧ InChunk [8] [4] e) ∧
      ¬ ((twoInTen.intersectsChunk [4] [4] : Except (Halt Unit) Bool) = .ok true ↔
        ∃ e, twoInTen.Selects e ∧ InChunk [4] [4] e) :=
  ⟨(intersectsChunk_exact_iff (n := 1) (by decide) rfl rfl (by decide)).2.mpr (by decide),
    (intersectsChunk_exact_iff (n := 1) (by decide) rfl rfl (by decide)).2.not.mpr (by decide)⟩

/-- The chunk of the elements 4 to 7 holds none of the elements 0, 1, 10 and 11. -/
theorem intersectsChunk_between_blocks :
    (twoInTen.intersectsChunk [4] [4] : Except (Halt Unit) Bool) = .ok true ∧
      ¬ ∃ e, twoInTen.Selects e ∧ InChunk [4] [4] e := by
  unfold twoInTen
  rw [exists_selects_hyperslab_iff (n := 1) (by decide) rfl (by decide)]
  decide

end Selection

end ClawHdf5
