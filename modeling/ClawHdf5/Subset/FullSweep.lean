import ClawHdf5.SelectionExtent
import ClawHdf5.Subset.Coverage

/-!
# The bounded sweep and the full sweep

The chunks that meet a selection are found by sweeping the box of chunks around the selection. The
reference is the sweep of the whole grid with the same test. Both visit chunks in ascending order,
so they return the same list exactly when no chunk outside the box passes the test. That can happen
for empty hyperslabs only: they have no box, while the test compares extents.
-/

namespace ClawHdf5.Subset

open Fallible MachineInt Odometer Strided List Except

variable {ε : Type}

def wholeGrid (nPerDim : List UInt64) : Box := nPerDim.map fun n => (0, n - 1)

/-- The chunks of the whole grid that meet a selection, in row-major order. -/
def fullSweep (sel : Selection) (nPerDim chunkShape : List UInt64) :
    Except (Halt ε) (List (List UInt64)) :=
  if nPerDim.length = 0 ∨ 0 ∈ nPerDim then .ok []
  else
    keep (fun counter => sel.intersectsChunk (zipWith (· * ·) counter chunkShape) chunkShape)
      (sweep (wholeGrid nPerDim) (volume (wholeGrid nPerDim)) (low (wholeGrid nPerDim)))

/-- Chunk extents for a grid: one for each axis, none of them zero, and the end of the grid fits a
word. -/
structure GridFits (nPerDim chunkShape : List UInt64) : Prop where
  length_eq : chunkShape.length = nPerDim.length
  pos : ∀ d < nPerDim.length, 0 < (chunkShape.getD d 0).toNat
  fits : ∀ d < nPerDim.length, (nPerDim.getD d 0).toNat * (chunkShape.getD d 0).toNat < 2 ^ 64

/-- The box covers all chunks that pass the test. For a hyperslab with an empty axis there is no
box, and no chunk passes the test only if the hyperslab starts behind the grid, or at a chunk
boundary with an extent of zero. -/
def BoxCoversTest (nPerDim chunkShape : List UInt64) : Selection → Prop
  | .all | .none | .points _ => True
  | .hyperslab start stride count block =>
    (∀ d < nPerDim.length, 0 < (count.getD d 0).toNat ∧ 0 < (block.getD d 0).toNat) ∨
      ∃ d < nPerDim.length,
        (nPerDim.getD d 0).toNat * (chunkShape.getD d 0).toNat ≤ (start.getD d 0).toNat ∨
          ((chunkShape.getD d 0).toNat ∣ (start.getD d 0).toNat ∧
            (Selection.axisBlocks start stride count block d).stop = (start.getD d 0).toNat)

instance (nPerDim chunkShape : List UInt64) (sel : Selection) :
    Decidable (BoxCoversTest nPerDim chunkShape sel) :=
  match sel with
  | .all => isTrue trivial
  | .none => isTrue trivial
  | .points _ => isTrue trivial
  | .hyperslab _ _ _ _ => inferInstanceAs (Decidable ((∀ d < _, _) ∨ ∃ d < _, _))

/-! ### Chunks of a grid that fits -/

section

variable {nPerDim chunkShape c : List UInt64} {d : ℕ}

section

variable (h : GridFits nPerDim chunkShape) (hc : InGrid nPerDim c)
include h hc

theorem GridFits.length_offset : (zipWith (· * ·) c chunkShape).length = nPerDim.length := by
  rw [length_zipWith, hc.length_eq, h.length_eq, min_self]

/-- The start of a chunk of the grid. -/
theorem GridFits.toNat_offset (hd : d < nPerDim.length) :
    ((zipWith (· * ·) c chunkShape).getD d 0).toNat =
      (c.getD d 0).toNat * (chunkShape.getD d 0).toNat := by
  have hle := chunk_end_le (hc.getD_lt hd) (chunkShape.getD d 0).toNat
  have hfits := h.fits d hd
  rw [getD_eq_getElem?_getD, getElem?_zipWith, getElem?_eq_getD (hc.length_eq.symm ▸ hd),
    getElem?_eq_getD (h.length_eq.symm ▸ hd), Option.getD_some, UInt64.toNat_mul]
  exact Nat.mod_eq_of_lt (by omega)

theorem GridFits.chunkFits : ChunkFits (zipWith (· * ·) c chunkShape) chunkShape := by
  intro d hd
  rw [h.length_offset hc] at hd
  rw [h.toNat_offset hc hd]
  exact (chunk_end_le (hc.getD_lt hd) _).trans_lt (h.fits d hd)

/-- The comparison of extents for a chunk of the grid. -/
theorem GridFits.axisTouches_iff (hd : d < nPerDim.length) {start stride count block : List UInt64}
    :
    Selection.AxisTouches start stride count block (zipWith (· * ·) c chunkShape) chunkShape d ↔
      (start.getD d 0).toNat <
          (c.getD d 0).toNat * (chunkShape.getD d 0).toNat + (chunkShape.getD d 0).toNat ∧
        (c.getD d 0).toNat * (chunkShape.getD d 0).toNat <
          (Selection.axisBlocks start stride count block d).stop := by
  have hle := chunk_end_le (hc.getD_lt hd) (chunkShape.getD d 0).toNat
  have hfits := h.fits d hd
  have hpos := h.pos d hd
  rw [Selection.AxisTouches, h.toNat_offset hc hd, lt_min_iff]
  refine and_congr_right fun _ => and_iff_left ?_
  omega

end

theorem GridFits.zero_notMem (h : GridFits nPerDim chunkShape) : 0 ∉ chunkShape := by
  intro h0
  obtain ⟨d, hd⟩ := mem_iff_getElem?.mp h0
  have hpos := h.pos d (h.length_eq ▸ lt_of_getElem? hd)
  rw [getD_eq_getElem?_getD, hd] at hpos
  exact lt_irrefl 0 hpos

/-- The box of chunks holds the chunks that meet the box of elements on each axis. -/
theorem GridFits.inBox_iff (h : GridFits nPerDim chunkShape) (hc : InGrid nPerDim c)
    {elements : Box} (hlen : elements.length = nPerDim.length) {range : Option Box}
    (hrange : (chunkBox nPerDim chunkShape (some elements) : Except (Halt ε) _) = .ok range) :
    (∃ box, range = some box ∧ InBox box c) ↔ ∀ d < nPerDim.length,
      MeetsRange (elements.getD d (0, 0)) (chunkShape.getD d 0) (c.getD d 0) :=
  chunkBox_contains_iff h.length_eq h.zero_notMem hlen hc (fun d hd => .inl (h.fits d hd)) hrange

end

/-! ### Two sweeps with one test -/

section

variable {sel : Selection} {nPerDim chunkShape : List UInt64} {box : Box}

theorem inBox_wholeGrid {c : List UInt64} (hzero : 0 ∉ nPerDim) :
    InBox (wholeGrid nPerDim) c ↔ InGrid nPerDim c := by
  rw [InBox, wholeGrid, forall₂_map_left_iff]
  constructor
  all_goals
    intro h
    obtain ⟨hlen, hall⟩ := forall₂_iff_getElem?.mp h
    refine forall₂_iff_getElem?.mpr ⟨hlen, fun d n x hn hx => ?_⟩
    have hx' := hall d n x hn hx
    have hn0 : n ≠ 0 := fun h0 => hzero (h0 ▸ mem_of_getElem? hn)
    simp only [UInt64.le_iff_toNat_le, toNat_sub_one hn0, UInt64.toNat_zero] at hx' ⊢
    have hpos := toNat_pos hn0
    omega

/-- Filtered sweeps of two boxes agree exactly when they have the same chunks. -/
theorem filter_sweep_eq_iff {box' : Box} {p : List UInt64 → Bool}
    (hbox : Bounded box) (hbox' : Bounded box') :
    (sweep box (volume box) (low box)).filter p = (sweep box' (volume box') (low box')).filter p ↔
      ∀ c, p c = true → (InBox box c ↔ InBox box' c) := by
  have hmem : ∀ {b : Box}, Bounded b → ∀ c,
      c ∈ (sweep b (volume b) (low b)).filter p ↔ InBox b c ∧ p c = true :=
    fun hb c => mem_filter.trans (and_congr_left fun _ => mem_sweep hb)
  constructor
  · intro heq c hc
    have hiff : c ∈ _ ↔ c ∈ _ := Iff.of_eq (congrArg (c ∈ ·) heq)
    rwa [hmem hbox, hmem hbox', and_iff_left hc, and_iff_left hc] at hiff
  · intro h
    -- both lists ascend, so their members decide
    refine ((pairwise_sweep hbox).filter p).eq_of_mem_iff ((pairwise_sweep hbox').filter p)
      fun c => ?_
    rw [hmem hbox, hmem hbox']
    exact and_congr_left (h c)

/-- The bounded sweep is the full sweep exactly when the chunks that pass the test are in the box.
-/
theorem chunkCoords_eq_fullSweep_iff_bounds (hfits : GridFits nPerDim chunkShape)
    (hrank : sel.HasRank nPerDim.length) (hempty : ¬ (nPerDim.length = 0 ∨ 0 ∈ nPerDim))
    {range : Option Box}
    (hrange : (selectionChunkBounds sel nPerDim chunkShape : Except (Halt ε) _) = .ok range) :
    (∃ coords, (fullSweep sel nPerDim chunkShape : Except (Halt ε) _) = .ok coords) ∧
    ((chunkCoordsForSelection sel nPerDim chunkShape : Except (Halt ε) _) =
        fullSweep sel nPerDim chunkShape ↔
      ∀ c, InGrid nPerDim c → (sel.intersectsChunk (zipWith (· * ·) c chunkShape) chunkShape :
        Except (Halt ε) _) = .ok true → ∃ box, range = some box ∧ InBox box c) := by
  have hzero := (not_or.mp hempty).2
  have hall : (selectionChunkBounds .all nPerDim chunkShape : Except (Halt ε) _) =
      .ok (some (wholeGrid nPerDim)) := rfl
  have hwhole := box_bounds (selectionChunkBounds_inGrid hzero hall)
  -- the test returns on every chunk of the grid
  have htest : ∀ c, InGrid nPerDim c → ∃ b, (sel.intersectsChunk
      (zipWith (· * ·) c chunkShape) chunkShape : Except (Halt ε) _) = .ok b :=
    fun c hc => intersectsChunk_ok hrank (hfits.length_offset hc) hfits.length_eq
  have hfull := (keep_eq_ok (ε := Halt ε)).mpr ⟨fun c hc =>
    htest c ((inBox_wholeGrid hzero).mp ((mem_sweep hwhole).mp hc)), rfl⟩
  rw [fullSweep, if_neg hempty, hfull, chunkCoordsForSelection, if_neg hempty, hrange, ok_bind]
  refine ⟨⟨_, rfl⟩, ?_⟩
  cases range with
  | none =>
    rw [ok.injEq, eq_comm, filter_eq_nil_iff]
    refine forall_congr' fun c => ?_
    rw [mem_sweep hwhole, inBox_wholeGrid hzero]
    refine imp_congr_right fun hc => ?_
    obtain ⟨b, hb⟩ := htest c hc
    rw [hb]
    cases b <;> simp
  | some box =>
    have hgrid := selectionChunkBounds_inGrid hzero hrange
    have hbox := box_bounds hgrid
    have hbounded := (keep_eq_ok (ε := Halt ε)).mpr ⟨fun c hc =>
      htest c (inGrid_of_inBox hgrid ((mem_sweep hbox).mp hc)), rfl⟩
    dsimp only
    rw [hbounded, ok.injEq, filter_sweep_eq_iff hbox hwhole]
    refine forall_congr' fun c => ?_
    rw [inBox_wholeGrid hzero]
    constructor
    · intro h hc hmeets
      exact ⟨box, rfl, (h (by rw [hmeets])).mpr hc⟩
    · intro h hpass
      refine ⟨inGrid_of_inBox hgrid, fun hc => ?_⟩
      obtain ⟨b, hb⟩ := htest c hc
      have hmeets : b = true := by
        rw [hb] at hpass
        cases b with
        | true => rfl
        | false => exact absurd hpass (by simp)
      obtain ⟨box', hbox', hin⟩ := h hc (by rw [hb, hmeets])
      rwa [Option.some.inj hbox']

end

/-! ### Hyperslabs and points -/

section

variable {nPerDim chunkShape start stride count block : List UInt64}

/-- Some chunk on an axis passes the test exactly when the blocks start within the grid and not at a
chunk boundary with an extent of zero. -/
theorem exists_chunk_touches_iff {n s : ℕ} (hs : 0 < s) (b : Blocks) :
    (∃ x < n, b.first < x * s + s ∧ x * s < b.stop) ↔
      b.first < n * s ∧ ¬ (s ∣ b.first ∧ b.stop = b.first) := by
  constructor
  · intro h
    obtain ⟨x, hx, hfirst, hstop⟩ := h
    refine ⟨hfirst.trans_le (chunk_end_le hx s), fun hzero => ?_⟩
    obtain ⟨⟨k, hk⟩, hextent⟩ := hzero
    rw [hextent, hk, mul_comm s k] at hstop
    rw [hk, mul_comm s k, ← Nat.succ_mul] at hfirst
    have hxk := lt_of_mul_lt_mul_right hstop
    have hkx := lt_of_mul_lt_mul_right hfirst
    omega
  · intro h
    obtain ⟨hin, hextent⟩ := h
    -- the chunk in which the blocks start
    have hle : b.first / s * s ≤ b.first := Nat.div_mul_le_self _ _
    have hlt : b.first < b.first / s * s + s := by
      rw [← Nat.succ_mul, ← Nat.div_lt_iff_lt_mul hs]
      exact Nat.lt_succ_self _
    refine ⟨b.first / s, (Nat.div_lt_iff_lt_mul hs).mpr hin, hlt, ?_⟩
    have hstop := b.first_le_stop
    by_contra hge
    exact hextent ⟨⟨b.first / s, by rw [mul_comm]; omega⟩, by omega⟩

/-- The chunks of the grid that pass the test of a hyperslab. -/
theorem exists_chunk_intersects_iff (hfits : GridFits nPerDim chunkShape)
    (hrank : (Selection.hyperslab start stride count block).HasRank nPerDim.length) :
    (∃ c, InGrid nPerDim c ∧ ((Selection.hyperslab start stride count block).intersectsChunk
        (zipWith (· * ·) c chunkShape) chunkShape : Except (Halt ε) _) = .ok true) ↔
      ∀ d < nPerDim.length,
        (start.getD d 0).toNat < (nPerDim.getD d 0).toNat * (chunkShape.getD d 0).toNat ∧
        ¬ ((chunkShape.getD d 0).toNat ∣ (start.getD d 0).toNat ∧
          (Selection.axisBlocks start stride count block d).stop = (start.getD d 0).toNat) := by
  have haxis := fun d (hd : d < nPerDim.length) =>
    exists_chunk_touches_iff (n := (nPerDim.getD d 0).toNat) (hfits.pos d hd)
      (Selection.axisBlocks start stride count block d)
  have hwords := exists_words_iff (n := nPerDim.length)
    (P := fun d x => x < (nPerDim.getD d 0).toNat ∧
      (start.getD d 0).toNat < x * (chunkShape.getD d 0).toNat + (chunkShape.getD d 0).toNat ∧
      x * (chunkShape.getD d 0).toNat < (Selection.axisBlocks start stride count block d).stop)
    fun d _ x hx => hx.1.trans (nPerDim.getD d 0).toNat_lt
  refine Iff.trans ?_ (hwords.trans (forall₂_congr haxis))
  refine exists_congr fun c => ?_
  constructor
  · intro h
    obtain ⟨hc, hmeets⟩ := h
    rw [Selection.intersectsChunk_hyperslab hrank (hfits.length_offset hc) hfits.length_eq
      (hfits.chunkFits hc)] at hmeets
    exact ⟨hc.length_eq, fun d hd =>
      ⟨hc.getD_lt hd, (hfits.axisTouches_iff hc hd).mp (hmeets d hd)⟩⟩
  · intro h
    obtain ⟨hlen, hall⟩ := h
    have hc : InGrid nPerDim c := inGrid_iff_getD.mpr ⟨hlen, fun d hd => (hall d hd).1⟩
    refine ⟨hc, ?_⟩
    rw [Selection.intersectsChunk_hyperslab hrank (hfits.length_offset hc) hfits.length_eq
      (hfits.chunkFits hc)]
    exact fun d hd => (hfits.axisTouches_iff hc hd).mpr (hall d hd).2

/-- A grid without chunks needs no box. -/
theorem boxCoversTest_of_noChunks {sel : Selection}
    (hempty : nPerDim.length = 0 ∨ 0 ∈ nPerDim) : BoxCoversTest nPerDim chunkShape sel := by
  cases sel with
  | all => trivial
  | none => trivial
  | points pts => trivial
  | hyperslab start stride count block =>
    rcases hempty with hrank | hzero
    · exact .inl fun d hd => absurd (hrank ▸ hd) (Nat.not_lt_zero d)
    · obtain ⟨d, hd⟩ := mem_iff_getElem?.mp hzero
      refine .inr ⟨d, (lt_of_getElem? hd), .inl ?_⟩
      have hd0 : nPerDim.getD d 0 = 0 := by
        rw [getD_eq_getElem?_getD, hd, Option.getD_some]
      rw [hd0, UInt64.toNat_zero, zero_mul]
      exact zero_le

theorem hyperslab_covers_iff (hfits : GridFits nPerDim chunkShape)
    (hrank : (Selection.hyperslab start stride count block).HasRank nPerDim.length) :
    ∃ range, (selectionChunkBounds (.hyperslab start stride count block) nPerDim chunkShape :
        Except (Halt ε) _) = .ok range ∧
      ((∀ c, InGrid nPerDim c → ((Selection.hyperslab start stride count block).intersectsChunk
          (zipWith (· * ·) c chunkShape) chunkShape : Except (Halt ε) _) = .ok true →
          ∃ box, range = some box ∧ InBox box c) ↔
        BoxCoversTest nPerDim chunkShape (.hyperslab start stride count block)) := by
  obtain ⟨r, range, hr, hrange⟩ := chunkBox_axes_ok (ε := ε) hfits.length_eq fun d hd =>
    hyperslabAxis_ok hrank hd
  refine ⟨range, by rw [selectionChunkBounds, hr, ok_bind, hrange], ?_⟩
  cases r with
  | some elements =>
    -- no axis is empty, and the box of elements is that of the test
    obtain ⟨hlen, hall⟩ := collectSome_range (0, 0) hr
    have haxis := fun d hd => (hyperslabAxis_eq_some.mp (hall d hd)).2
    refine iff_of_true (fun c hc hmeets => (hfits.inBox_iff hc hlen hrange).mpr fun d hd => ?_)
      (.inl fun d hd => ⟨toNat_pos (haxis d hd).1, toNat_pos (haxis d hd).2.1⟩)
    rw [Selection.intersectsChunk_hyperslab hrank (hfits.length_offset hc) hfits.length_eq
      (hfits.chunkFits hc)] at hmeets
    have htouches := hmeets d hd
    rw [Selection.AxisTouches, hfits.toNat_offset hc hd, Selection.axisBlocks,
      ← Selection.toNat_saturatingEnd (haxis d hd).1] at htouches
    rw [(haxis d hd).2.2]
    exact htouches
  | none =>
    have hpos : ¬ ∀ d < nPerDim.length,
        0 < (count.getD d 0).toNat ∧ 0 < (block.getD d 0).toNat := by
      intro hpos
      obtain ⟨d, hd, hnone⟩ := collectSome_none hr
      have haxis := hpos d (mem_range.mp hd)
      rcases hyperslabAxis_none hnone with h0 | h0
      · rw [h0] at haxis
        exact lt_irrefl 0 haxis.1
      · rw [h0] at haxis
        exact lt_irrefl 0 haxis.2
    obtain rfl := ok.inj hrange
    have hnobox : ∀ c : List UInt64, ¬ ∃ box : Box, none = some box ∧ InBox box c :=
      fun c h => by simp at h
    rw [BoxCoversTest, or_iff_right hpos]
    -- without a box the test has to fail on every chunk of the grid
    have hmeets := not_congr (exists_chunk_intersects_iff (ε := ε) hfits hrank)
    push Not at hmeets
    simp only [hnobox, hmeets]
    refine exists_congr fun d => and_congr_right fun hd => ?_
    rw [or_iff_not_imp_left, not_le]

theorem points_covers {pts : List (List UInt64)} (hfits : GridFits nPerDim chunkShape)
    (hrank : (Selection.points pts).HasRank nPerDim.length) :
    ∃ range, (selectionChunkBounds (.points pts) nPerDim chunkShape :
        Except (Halt ε) _) = .ok range ∧
      ∀ c, InGrid nPerDim c → ((Selection.points pts).intersectsChunk
        (zipWith (· * ·) c chunkShape) chunkShape : Except (Halt ε) _) = .ok true →
        ∃ box, range = some box ∧ InBox box c := by
  by_cases hnil : pts = []
  · refine ⟨none, by rw [selectionChunkBounds, if_pos hnil], fun c _ hmeets => ?_⟩
    rw [hnil] at hmeets
    exact absurd (ok.inj hmeets) (by simp)
  obtain ⟨r, range, hr, hrange⟩ := chunkBox_axes_ok (ε := ε) hfits.length_eq fun d hd =>
    pointsAxis_ok fun pt hpt => (hrank pt hpt).symm ▸ hd
  refine ⟨range, by rw [selectionChunkBounds, if_neg hnil, hr, ok_bind, hrange], ?_⟩
  intro c hc hmeets
  rw [Selection.intersectsChunk_points hrank (hfits.length_offset hc) hfits.length_eq
    (hfits.chunkFits hc)] at hmeets
  obtain ⟨e, he, hin⟩ := hmeets
  -- the element is not the largest word on any axis, so the end of the range is behind it
  have haxis : ∀ d < nPerDim.length,
      (c.getD d 0).toNat * (chunkShape.getD d 0).toNat ≤ (e.getD d 0).toNat ∧ (e.getD d 0).toNat <
          (c.getD d 0).toNat * (chunkShape.getD d 0).toNat + (chunkShape.getD d 0).toNat := by
    intro d hd
    have hbounds := hin.2 d ((hrank e he).symm ▸ hd)
    rwa [hfits.toNat_offset hc hd] at hbounds
  have hmax : ∀ d, (e.getD d 0).toNat < 2 ^ 64 - 1 := by
    intro d
    by_cases hd : d < nPerDim.length
    · have hend := (chunk_end_le (hc.getD_lt hd) (chunkShape.getD d 0).toNat).trans_lt
        (hfits.fits d hd)
      have hbounds := haxis d hd
      omega
    · rw [getD_eq_default _ _ ((hrank e he).le.trans (not_lt.mp hd))]
      decide
  obtain ⟨elements, rfl, hlen, hcontains⟩ := points_elements hr he hmax
  refine (hfits.inBox_iff hc hlen hrange).mpr fun d hd => ?_
  obtain ⟨-, hlo, hhi⟩ := hcontains d hd
  exact ⟨hlo.trans_lt (haxis d hd).2, (haxis d hd).1.trans_lt hhi⟩

end

/-- Both sweeps return, and they return the same list exactly when the box covers the chunks that
pass the test. -/
theorem chunkCoordsForSelection_eq_fullSweep_iff {sel : Selection}
    {nPerDim chunkShape : List UInt64} (hfits : GridFits nPerDim chunkShape)
    (hrank : sel.HasRank nPerDim.length) :
    (∃ coords, (fullSweep sel nPerDim chunkShape : Except (Halt ε) _) = .ok coords) ∧
      ((chunkCoordsForSelection sel nPerDim chunkShape : Except (Halt ε) _) =
        fullSweep sel nPerDim chunkShape ↔ BoxCoversTest nPerDim chunkShape sel) := by
  by_cases hempty : nPerDim.length = 0 ∨ 0 ∈ nPerDim
  · rw [fullSweep, if_pos hempty, chunkCoordsForSelection, if_pos hempty]
    exact ⟨⟨_, rfl⟩, iff_of_true rfl (boxCoversTest_of_noChunks hempty)⟩
  cases sel with
  | all =>
    obtain ⟨hok, hiff⟩ := chunkCoords_eq_fullSweep_iff_bounds (ε := ε) hfits hrank hempty rfl
    refine ⟨hok, hiff.trans (iff_of_true (fun c hc _ => ⟨_, rfl, ?_⟩) trivial)⟩
    exact (inBox_wholeGrid (not_or.mp hempty).2).mpr hc
  | none =>
    obtain ⟨hok, hiff⟩ := chunkCoords_eq_fullSweep_iff_bounds (ε := ε) hfits hrank hempty rfl
    refine ⟨hok, hiff.trans (iff_of_true (fun c hc h => ?_) trivial)⟩
    exact absurd (ok.inj h) Bool.false_ne_true
  | hyperslab start stride count block =>
    obtain ⟨range, hrange, hcovers⟩ := hyperslab_covers_iff (ε := ε) hfits hrank
    obtain ⟨hok, hiff⟩ := chunkCoords_eq_fullSweep_iff_bounds hfits hrank hempty hrange
    exact ⟨hok, hiff.trans hcovers⟩
  | points pts =>
    obtain ⟨range, hrange, hcovers⟩ := points_covers (ε := ε) hfits hrank
    obtain ⟨hok, hiff⟩ := chunkCoords_eq_fullSweep_iff_bounds hfits hrank hempty hrange
    exact ⟨hok, hiff.trans (iff_of_true hcovers trivial)⟩

/-- A hyperslab of one axis with no blocks, from `first` on. -/
def noBlocks (first : UInt64) : Selection := .hyperslab [first] [1] [0] [1]

/-- On chunks of four elements the sweeps agree about the empty hyperslab at the start of a chunk
and not about the one inside a chunk. -/
theorem chunkCoordsForSelection_eq_fullSweep_noBlocks :
    (chunkCoordsForSelection (noBlocks 4) [2] [4] : Except (Halt Unit) _) =
        fullSweep (noBlocks 4) [2] [4] ∧
      (chunkCoordsForSelection (noBlocks 5) [2] [4] : Except (Halt Unit) _) ≠
        fullSweep (noBlocks 5) [2] [4] := by
  have hfits : GridFits [2] [4] := ⟨rfl, by decide, by decide⟩
  exact ⟨(chunkCoordsForSelection_eq_fullSweep_iff hfits (by decide)).2.mpr (by decide),
    (chunkCoordsForSelection_eq_fullSweep_iff hfits (by decide)).2.not.mpr (by decide)⟩

/-- An empty hyperslab inside the second chunk: the full sweep finds that chunk. -/
theorem fullSweep_finds_noBlocks :
    (chunkCoordsForSelection (noBlocks 5) [2] [4] : Except (Halt Unit) _) = .ok [] ∧
      (fullSweep (noBlocks 5) [2] [4] : Except (Halt Unit) _) = .ok [[1]] := by
  decide +kernel

end ClawHdf5.Subset
