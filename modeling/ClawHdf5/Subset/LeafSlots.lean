import ClawHdf5.Subset.Order

/-!
# Leaf indices and the leaf row

The leaf row of a tree has as many slots as the next power of two above the number of chunks. A
row-major index stays below the number of chunks. The curves run through a cube around the grid, and
an index along them stays in the row only when the leading bit of each axis does.
-/

namespace ClawHdf5.Subset

open Fallible MachineInt Merkle WordBits List UInt64

variable {bits d k : ℕ}

/-! ### The highest plane of a Hilbert index -/

/-- The parities of the prefixes of `bs`, behind bits of parity `p`. -/
def prefixParity : Bool → List Bool → List Bool
  | _, [] => []
  | p, b :: bs => (b ^^ p) :: prefixParity (b ^^ p) bs

theorem length_prefixParity (p : Bool) (bs : List Bool) :
    (prefixParity p bs).length = bs.length := by
  induction bs generalizing p with
  | nil => rfl
  | cons b bs ih => rw [prefixParity, length_cons, length_cons, ih]

/-- A prefix of odd parity has a bit that is set. -/
theorem exists_of_prefixParity {p : Bool} {bs : List Bool} (h : (prefixParity p bs)[d]? = some true)
    : p = true ∨ ∃ i ≤ d, bs[i]? = some true := by
  induction bs generalizing p d with
  | nil => exact absurd h (by simp [prefixParity])
  | cons b bs ih =>
    cases d with
    | zero =>
      cases p with
      | true => exact .inl rfl
      | false =>
        rw [prefixParity, Bool.xor_false] at h
        exact .inr ⟨0, le_rfl, h⟩
    | succ d =>
      rcases ih h with hparity | ⟨i, hi, hset⟩
      · cases b with
        | true => exact .inr ⟨0, zero_le, rfl⟩
        | false => exact .inl (by simpa using hparity)
      · exact .inr ⟨i + 1, Nat.succ_le_succ hi, hset⟩

/-- The prefix up to the first bit that is set is of odd parity. -/
theorem prefixParity_first {bs : List Bool} (hclear : ∀ i < d, bs[i]? = some false)
    (hset : bs[d]? = some true) : (prefixParity false bs)[d]? = some true := by
  induction bs generalizing d with
  | nil => exact absurd hset (by simp)
  | cons b bs ih =>
    cases d with
    | zero => simpa [prefixParity] using hset
    | succ d =>
      have hb : b = false := by simpa using hclear 0 (Nat.succ_pos d)
      rw [hb]
      exact ih (fun i hi => hclear (i + 1) (Nat.succ_lt_succ hi)) hset

theorem map_bit_grayEncode (j : ℕ) (previous : UInt64) (x : List UInt64) :
    (grayEncode previous x).map (bit · j) = prefixParity (bit previous j) (x.map (bit · j)) := by
  induction x generalizing previous with
  | nil => rfl
  | cons v x ih => rw [grayEncode, map_cons, map_cons, prefixParity, ih, bit_xor]

theorem map_bit_modify {j i : ℕ} {t : UInt64} (ht : bit t j = false) (x : List UInt64) :
    (x.modify i (· ^^^ t)).map (bit · j) = x.map (bit · j) := by
  apply ext_getElem?
  intro d
  rw [getElem?_map, getElem?_map, getElem?_modify]
  split_ifs
  · cases x[d]? <;> simp [ht]
  · cases x[d]? <;> rfl

/-- Undoing the reflections of a plane changes the planes below it only. -/
theorem map_bit_exchange {j : ℕ} (hk : k < 64) (hj : k ≤ j) (x : List UInt64) (i : ℕ) :
    (exchange (oneBit k) x i).map (bit · j) = x.map (bit · j) := by
  have hmask : bit (oneBit k - 1) j = false := by
    rw [bit_oneBit_sub_one hk, decide_eq_false_iff_not]
    omega
  unfold exchange
  split_ifs
  · exact map_bit_modify hmask x
  · have hand : ∀ t, bit (t &&& (oneBit k - 1)) j = false := by
      intro t
      rw [bit_and, hmask, Bool.and_false]
    rw [map_bit_modify (hand _), map_bit_modify (hand _)]

theorem map_bit_undoPlanes (hbits : bits ≤ 64) (x : List UInt64) :
    ((planes bits).foldl undoPlane x).map (bit · (bits - 1)) = x.map (bit · (bits - 1)) := by
  have hplane : ∀ k ∈ planes bits, ∀ y : List UInt64,
      (undoPlane y k).map (bit · (bits - 1)) = y.map (bit · (bits - 1)) := by
    intro k hk y
    have hlt := (mem_planes.mp hk).2
    refine foldlRecOn (motive := fun z : List UInt64 =>
      z.map (bit · (bits - 1)) = y.map (bit · (bits - 1))) _ _ rfl fun z hz i _ => ?_
    rw [map_bit_exchange (by omega) (by omega), hz]
  refine foldlRecOn (motive := fun z : List UInt64 =>
    z.map (bit · (bits - 1)) = x.map (bit · (bits - 1))) _ _ rfl fun z hz k hk => ?_
  rw [hplane k hk, hz]

/-- In the highest plane the transform takes parities of prefixes of the axes. -/
theorem map_bit_axesToTranspose (hbits : bits ≤ 64) (x : List UInt64) :
    (axesToTranspose bits x).map (bit · (bits - 1)) =
      prefixParity false (x.map (bit · (bits - 1))) := by
  have hmask : ∀ v, bit (lastMask bits v) (bits - 1) = false :=
    fun v => lt_two_pow_iff.mp (lastMask_lt_half hbits v) _ le_rfl
  have hgray := map_bit_grayEncode (bits - 1) 0 ((planes bits).foldl undoPlane x)
  rw [bit_zero, map_bit_undoPlanes hbits] at hgray
  rw [← hgray, axesToTranspose, map_map]
  apply map_congr_left
  intro v _
  rw [Function.comp_apply, bit_xor, hmask, Bool.xor_false]

theorem length_axesToTranspose (hbits : bits ≤ 64) (x : List UInt64) :
    (axesToTranspose bits x).length = x.length := by
  have hlen := congrArg length (map_bit_axesToTranspose hbits x)
  rwa [length_map, length_prefixParity, length_map] at hlen

/-! ### Extents and coordinates -/

section

variable {nPerDim coord : List UInt64} {d : ℕ} {n v : UInt64}

/-- A bit of a coordinate is no higher than the leading bit of the largest coordinate on its
axis. -/
theorem InGrid.bit_le (h : InGrid nPerDim coord) (hv : coord[d]? = some v) (hset : bit v k = true) :
    ∃ n, nPerDim[d]? = some n ∧ 1 < n.toNat ∧ k ≤ Nat.log2 (n.toNat - 1) := by
  obtain ⟨n, hn, hlt⟩ : ∃ n, nPerDim[d]? = some n ∧ v.toNat < n.toNat := by
    obtain ⟨hlen, hall⟩ := forall₂_iff_getElem?.mp h
    have hd : d < nPerDim.length := by
      rw [hlen]
      exact lt_of_getElem? hv
    exact ⟨nPerDim[d], getElem?_eq_getElem hd, hall d _ _ (getElem?_eq_getElem hd) hv⟩
  have hge : 2 ^ k ≤ v.toNat := Nat.ge_two_pow_of_testBit hset
  have hone := Nat.two_pow_pos k
  exact ⟨n, hn, by omega, (Nat.le_log2 (by omega)).mpr (by omega)⟩

/-- The coordinate at the end of one axis. -/
def axisCorner (nPerDim : List UInt64) (d : ℕ) (n : UInt64) : List UInt64 :=
  (nPerDim.map fun _ => 0).set d (n - 1)

theorem getElem?_axisCorner (hn : nPerDim[d]? = some n) (i : ℕ) :
    (axisCorner nPerDim d n)[i]? = nPerDim[i]?.map fun _ => if d = i then n - 1 else 0 := by
  have hd := lt_of_getElem? hn
  rw [axisCorner, getElem?_set, length_map, getElem?_map]
  by_cases hi : d = i
  · subst hi
    rw [if_pos rfl, if_pos hd, hn, Option.map_some, if_pos rfl]
  · simp only [if_neg hi]

theorem axisCorner_inGrid (hzero : 0 ∉ nPerDim) (hn : nPerDim[d]? = some n) :
    InGrid nPerDim (axisCorner nPerDim d n) := by
  refine forall₂_iff_getElem?.mpr ⟨by rw [axisCorner, length_set, length_map], ?_⟩
  intro i m c hm hc
  rw [getElem?_axisCorner hn, hm, Option.map_some, Option.some.injEq] at hc
  have hpos : ∀ m ∈ nPerDim, m ≠ 0 := fun m hmem h0 => hzero (h0 ▸ hmem)
  have hm0 := hpos m (mem_of_getElem? hm)
  have hmpos : 0 < m.toNat := pos_of_ne_zero fun h0 => hm0 (UInt64.toNat_inj.mp h0)
  rw [← hc]
  split_ifs with hi
  · subst hi
    obtain rfl := Option.some.inj (hn.symm.trans hm)
    rw [toNat_sub_one hm0]
    omega
  · exact hmpos

theorem bit_axisEnd (hn : 1 < n.toNat) : bit (n - 1) (Nat.log2 (n.toNat - 1)) = true := by
  have hne : n ≠ 0 := fun h0 => absurd hn (by rw [h0]; decide)
  rw [bit, toNat_sub_one hne]
  exact Nat.testBit_log2 (by omega)

end

/-! ### The smallest cube -/

/-- The largest of some extents above one decides the bits of the cube. -/
theorem exists_hilbertBits_eq {nPerDim : List UInt64} (h : ∃ n ∈ nPerDim, 1 < n.toNat) :
    ∃ n ∈ nPerDim, 1 < n.toNat ∧ hilbertBits nPerDim = Nat.log2 (n.toNat - 1) + 1 ∧
      ∀ m ∈ nPerDim, m.toNat ≤ n.toNat := by
  obtain ⟨m, hm, hlt⟩ := h
  have hle : ∀ m ∈ nPerDim, m.toNat ≤ (nPerDim.foldl max 0).toNat :=
    fun m hm => toNat_le_foldl_max hm 0
  have hmem : nPerDim.foldl max 0 ∈ nPerDim := by
    rcases foldl_max_mem nPerDim 0 with h0 | hmem
    · have := hle m hm
      rw [h0, UInt64.toNat_zero] at this
      omega
    · exact hmem
  set n := nPerDim.foldl max 0 with hn
  have hn1 : 1 < n.toNat := hlt.trans_le (hle m hm)
  have hne : n ≠ 0 := fun h0 => absurd hn1 (by rw [h0]; decide)
  have hpred : n - 1 ≠ 0 := by
    intro h0
    have := congrArg toNat h0
    rw [toNat_sub_one hne, UInt64.toNat_zero] at this
    omega
  refine ⟨n, hmem, hn1, ?_, hle⟩
  have hmax : max n 1 = n := by
    apply UInt64.toNat_inj.mp
    rw [toNat_max, toNat_one]
    omega
  rw [hilbertBits, hmax, bitLength_of_ne_zero hpred, toNat_sub_one hne]
  omega

theorem hilbertBits_of_forall_le {nPerDim : List UInt64} (h : ∀ n ∈ nPerDim, n.toNat ≤ 1) :
    hilbertBits nPerDim = 1 := by
  have hmax : max (nPerDim.foldl max 0) 1 = 1 := by
    apply UInt64.toNat_inj.mp
    rw [toNat_max]
    rcases foldl_max_mem nPerDim 0 with h0 | hmem
    · rw [h0]
      rfl
    · exact max_eq_right (h _ hmem)
  rw [hilbertBits, hmax]
  decide

/-! ### Slots for every chunk -/

/-- Where an order puts axis `d` among the bits of one plane. -/
def planePlace (order : LeafOrder) (rank d : ℕ) : ℕ :=
  match order with
  | .hilbert => rank - 1 - d
  | _ => d

/-- The place in a leaf index of the leading bit of an axis with `n` chunks. -/
def leadingPlace (order : LeafOrder) (rank d n : ℕ) : ℕ :=
  Nat.log2 (n - 1) * rank + planePlace order rank d

/-- The leading bit of each axis with more than one chunk stands below the number of chunks. -/
def LeadingBitsFit (nPerDim : List UInt64) (order : LeafOrder) : Prop :=
  ∀ d n, nPerDim[d]? = some n → 1 < n.toNat →
    2 ^ leadingPlace order nPerDim.length d n.toNat < (nPerDim.map UInt64.toNat).prod

instance (nPerDim : List UInt64) (order : LeafOrder) :
    Decidable (LeadingBitsFit nPerDim order) :=
  decidable_of_iff (∀ p ∈ nPerDim.zipIdx, 1 < p.1.toNat →
      2 ^ leadingPlace order nPerDim.length p.2 p.1.toNat < (nPerDim.map UInt64.toNat).prod) <| by
    simp only [LeadingBitsFit, Prod.forall, List.mem_zipIdx_iff_getElem?]
    exact forall_comm

/-- A power of two is below the next power of two of a number exactly when it is below the
number. -/
theorem two_pow_lt_nextPowerOfTwo {p n : ℕ} : 2 ^ p < nextPowerOfTwo n ↔ 2 ^ p < n := by
  constructor
  · intro h
    by_contra hge
    exact absurd (nextPowerOfTwo_le (not_lt.mp hge)) (not_le.mpr h)
  · exact fun h => h.trans_le (le_nextPowerOfTwo n)

section

variable {nPerDim coord : List UInt64} {a : ℕ}
variable {bits d : ℕ}

/-- Z-order indices of a grid stay below `2 ^ a` when the leading bits do. -/
theorem mortonIndex_lt_iff (hzero : 0 ∉ nPerDim) (hne : nPerDim.length ≠ 0)
    (hcube : ∀ coord, InGrid nPerDim coord → coord ∈ Cube (64 / nPerDim.length) nPerDim.length) :
    (∀ coord, InGrid nPerDim coord → (mortonIndex coord).toNat < 2 ^ a) ↔
      ∀ d n, nPerDim[d]? = some n → 1 < n.toNat →
        leadingPlace .morton nPerDim.length d n.toNat < a := by
  constructor
  · intro h d n hn hn1
    have hin := axisCorner_inGrid hzero hn
    have hlen := hin.length_eq
    have hend : (axisCorner nPerDim d n)[d]? = some (n - 1) := by
      rw [getElem?_axisCorner hn, hn, Option.map_some, if_pos rfl]
    have hbits := (mortonIndex_interleaves (hlen ▸ hne)).lt_two_pow_iff.mp (h _ hin)
    rw [hlen] at hbits
    -- the leading bit is one of those the curve takes
    have hk : Nat.log2 (n.toNat - 1) < 64 / nPerDim.length := by
      by_contra hge
      have hclear := lt_two_pow_iff.mp ((hcube _ hin).2 _ (mem_of_getElem? hend)) _
        (not_lt.mp hge)
      exact Bool.false_ne_true (hclear.symm.trans (bit_axisEnd hn1))
    exact hbits _ hk d _ hend (bit_axisEnd hn1)
  · intro h coord hin
    have hlen := hin.length_eq
    refine (mortonIndex_interleaves (hlen ▸ hne)).lt_two_pow_iff.mpr ?_
    intro k _ d v hv hset
    obtain ⟨n, hn, hn1, hle⟩ := hin.bit_le hv hset
    have hplace : Nat.log2 (n.toNat - 1) * nPerDim.length + d < a := h d n hn hn1
    have hmul := Nat.mul_le_mul_right nPerDim.length hle
    rw [hlen, id]
    omega

/-- A Hilbert index in terms of the words that are interleaved. -/
theorem hilbertIndex_lt_iff_places (hin : InGrid nPerDim coord) (hne : nPerDim.length ≠ 0)
    (hpos : 0 < bits) (hbudget : bits * nPerDim.length ≤ 64) :
    (hilbertIndex coord bits).toNat < 2 ^ a ↔
      ∀ k < bits, ∀ d v, (axesToTranspose bits coord)[d]? = some v → bit v k = true →
        k * nPerDim.length + (nPerDim.length - 1 - d) < a := by
  have hbits : bits ≤ 64 := (Nat.le_mul_of_pos_right _ (pos_of_ne_zero hne)).trans hbudget
  have hlen : (axesToTranspose bits coord).length = nPerDim.length :=
    (length_axesToTranspose hbits coord).trans hin.length_eq
  rw [hilbertIndex, if_neg (by rw [hin.length_eq]; omega), ← hlen]
  exact (interleave_interleaves (by rwa [hlen]) hbits).lt_two_pow_iff

/-- At the end of an axis that reaches the highest plane, the word of that axis does too. -/
theorem exists_top_bit_axisCorner {n : UInt64} (hn : nPerDim[d]? = some n) (hn1 : 1 < n.toNat)
    (hbits : bits ≤ 64) (hmax : bits = Nat.log2 (n.toNat - 1) + 1) :
    ∃ v, (axesToTranspose bits (axisCorner nPerDim d n))[d]? = some v ∧
      bit v (bits - 1) = true := by
  have hplane : ∀ i, ((axisCorner nPerDim d n).map (bit · (bits - 1)))[i]? =
      nPerDim[i]?.map fun _ => if d = i then true else false := by
    intro i
    rw [getElem?_map, getElem?_axisCorner hn, Option.map_map]
    congr 1
    funext m
    rw [Function.comp_apply]
    split_ifs
    · rw [hmax, Nat.add_sub_cancel, bit_axisEnd hn1]
    · exact bit_zero _
  -- no axis before it has a bit in that plane
  have hparity : (prefixParity false ((axisCorner nPerDim d n).map (bit · (bits - 1))))[d]? =
      some true := by
    apply prefixParity_first
    · intro i hi
      have hi' : i < nPerDim.length := hi.trans (lt_of_getElem? hn)
      rw [hplane, getElem?_eq_getElem hi', Option.map_some, if_neg (by omega)]
    · rw [hplane, hn, Option.map_some, if_pos rfl]
  rwa [← map_bit_axesToTranspose hbits, getElem?_map, Option.map_eq_some_iff] at hparity

/-- A bit in the highest plane comes from an axis that is not behind it. -/
theorem InGrid.exists_axis_of_top_bit {v : UInt64} (hin : InGrid nPerDim coord) (hbits : bits ≤ 64)
    (hv : (axesToTranspose bits coord)[d]? = some v) (hset : bit v (bits - 1) = true) :
    ∃ i ≤ d, ∃ n, nPerDim[i]? = some n ∧ 1 < n.toNat ∧ bits - 1 ≤ Nat.log2 (n.toNat - 1) := by
  have hparity : (prefixParity false (coord.map (bit · (bits - 1))))[d]? = some true := by
    rw [← map_bit_axesToTranspose hbits, getElem?_map, hv, Option.map_some, hset]
  obtain ⟨i, hi, hbit⟩ := (exists_of_prefixParity hparity).resolve_left Bool.false_ne_true
  rw [getElem?_map, Option.map_eq_some_iff] at hbit
  obtain ⟨w, hw, hwset⟩ := hbit
  exact ⟨i, hi, hin.bit_le hw hwset⟩

theorem place_lt_of_lower_plane {r rank n : ℕ} (hr : r < rank) (hk : k < Nat.log2 (n - 1))
    (hplace : leadingPlace .hilbert rank d n < a) : k * rank + r < a := by
  have hmul := Nat.mul_le_mul_right rank (Nat.succ_le_of_lt hk)
  rw [Nat.succ_mul] at hmul
  unfold leadingPlace at hplace
  omega

/-- Hilbert indices of a grid stay below `2 ^ a` when the leading bits do. -/
theorem hilbertIndex_lt_iff (hzero : 0 ∉ nPerDim) (hne : nPerDim.length ≠ 0)
    (hbudget : hilbertBits nPerDim * nPerDim.length ≤ 64) :
    (∀ coord, InGrid nPerDim coord → (hilbertIndex coord (hilbertBits nPerDim)).toNat < 2 ^ a) ↔
      ∀ d n, nPerDim[d]? = some n → 1 < n.toNat →
        leadingPlace .hilbert nPerDim.length d n.toNat < a := by
  have hpos : 0 < hilbertBits nPerDim := lt_of_lt_of_le one_pos (le_max_right _ _)
  have hbits : hilbertBits nPerDim ≤ 64 :=
    (Nat.le_mul_of_pos_right _ (pos_of_ne_zero hne)).trans hbudget
  constructor
  · intro h
    -- first the axes that reach the highest plane
    have htop : ∀ d n, nPerDim[d]? = some n → 1 < n.toNat →
        hilbertBits nPerDim = Nat.log2 (n.toNat - 1) + 1 →
        leadingPlace .hilbert nPerDim.length d n.toNat < a := by
      intro d n hn hn1 hmax
      have hin := axisCorner_inGrid hzero hn
      obtain ⟨v, hv, hset⟩ := exists_top_bit_axisCorner hn hn1 hbits hmax
      have hlt := (hilbertIndex_lt_iff_places hin hne hpos hbudget).mp (h _ hin) _
        (Nat.sub_lt hpos one_pos) d v hv hset
      rwa [hmax] at hlt
    intro d n hn hn1
    have hmem := mem_of_getElem? hn
    obtain ⟨m, hm, hm1, hmax, hlargest⟩ := exists_hilbertBits_eq ⟨n, hmem, hn1⟩
    obtain ⟨e, he⟩ := mem_iff_getElem?.mp hm
    have hle : Nat.log2 (n.toNat - 1) ≤ Nat.log2 (m.toNat - 1) := by
      have hself := Nat.log2_self_le (n := n.toNat - 1) (by omega)
      have hnm := hlargest n hmem
      exact (Nat.le_log2 (by omega)).mpr (by omega)
    rcases lt_or_eq_of_le hle with hlt | heq
    · have hd := lt_of_getElem? hn
      have hr : planePlace .hilbert nPerDim.length d < nPerDim.length := by
        show nPerDim.length - 1 - d < nPerDim.length
        omega
      exact place_lt_of_lower_plane hr hlt (htop e m he hm1 hmax)
    · exact htop d n hn hn1 (by rw [hmax, heq])
  · intro h coord hin
    refine (hilbertIndex_lt_iff_places hin hne hpos hbudget).mpr ?_
    intro k hk d v hv hset
    by_cases hlow : k = hilbertBits nPerDim - 1
    · rw [hlow] at hset ⊢
      obtain ⟨i, hi, n, hn, hn1, hle⟩ := hin.exists_axis_of_top_bit hbits hv hset
      have hplace : Nat.log2 (n.toNat - 1) * nPerDim.length + (nPerDim.length - 1 - i) < a :=
        h i n hn hn1
      have hmul := Nat.mul_le_mul_right nPerDim.length hle
      omega
    · have hex : ∃ n ∈ nPerDim, 1 < n.toNat := by
        by_contra hall
        have hone := hilbertBits_of_forall_le fun n hn =>
          not_lt.mp fun hlt => hall ⟨n, hn, hlt⟩
        omega
      obtain ⟨m, hm, hm1, hmax, -⟩ := exists_hilbertBits_eq hex
      obtain ⟨e, he⟩ := mem_iff_getElem?.mp hm
      exact place_lt_of_lower_plane (by omega) (by omega) (h e m he hm1)

end

/-- In an accepted grid every chunk has a slot exactly when the order is row-major, there are no
chunks, or the leading bit of each axis stands below the number of chunks. -/
theorem leafIndexForCoord_lt_iff {grid : ChunkGridParams} {order : LeafOrder} {paddedCount : ℕ}
    (hpadded : checkedPaddedLeafCount grid = .ok paddedCount)
    (hbudget : checkOrderBitBudget grid.nChunksPerDim order = .ok ()) :
    (∀ coord, InGrid grid.nChunksPerDim coord →
        (leafIndexForCoord coord grid.nChunksPerDim order).toNat < paddedCount) ↔
      order = .rowMajor ∨ 0 ∈ grid.nChunksPerDim ∨
        LeadingBitsFit grid.nChunksPerDim order := by
  have hvalid := validGrid_of_checked hpadded
  obtain ⟨a, -, ha⟩ := hvalid.height
  by_cases hzero : 0 ∈ grid.nChunksPerDim
  · exact iff_of_true (fun coord hin => absurd hzero hin.zero_notMem) (.inr (.inl hzero))
  by_cases hrow : order = .rowMajor
  · subst hrow
    refine iff_of_true (fun coord hin => ?_) (.inl rfl)
    have hlt : grid.chunkTotal < 2 ^ 64 :=
      (hvalid.chunkTotal_le.trans hvalid.paddedCount_le).trans_lt (by decide)
    exact (rowMajorIndex_lt hin hlt).trans_le hvalid.chunkTotal_le
  rw [or_iff_right hrow, or_iff_right hzero]
  -- the leading places, below the height of the tree
  have hfit : LeadingBitsFit grid.nChunksPerDim order ↔
      ∀ d n, grid.nChunksPerDim[d]? = some n → 1 < n.toNat →
        leadingPlace order grid.nChunksPerDim.length d n.toNat < a := by
    have hheight : nextPowerOfTwo (grid.nChunksPerDim.map toNat).prod = 2 ^ a :=
      hvalid.paddedCount_eq.symm.trans ha
    simp [LeadingBitsFit, ← two_pow_lt_nextPowerOfTwo, hheight,
      Nat.pow_lt_pow_iff_right (by decide : 1 < 2)]
  rw [hfit, ha]
  by_cases hrank : grid.nChunksPerDim.length = 0
  · have hnil := eq_nil_of_length_eq_zero hrank
    rw [hnil]
    refine iff_of_true (fun coord hin => ?_) fun d n hn => absurd hn (by simp)
    have hcoord : coord = [] := eq_nil_of_length_eq_zero hin.length_eq
    rw [hcoord]
    cases order with
    | rowMajor => exact absurd rfl hrow
    | morton => exact Nat.two_pow_pos a
    | hilbert => exact Nat.two_pow_pos a
  · cases order with
    | rowMajor => exact absurd rfl hrow
    | morton =>
      exact mortonIndex_lt_iff hzero hrank fun coord hin =>
        hin.mem_mortonCube (mortonBudget_of_check hrank hbudget)
    | hilbert => exact hilbertIndex_lt_iff hzero hrank (hilbertBudget_of_check hrank hbudget)

def byteGrid (dims : List UInt64) : ChunkGridParams :=
  ⟨.chunked, dims, dims.map fun _ => 1, 1, zeroHash⟩

/-- Four rows of two chunks fill the leaf row in Z-order; two rows of four do not. -/
theorem leafIndexForCoord_lt_fourByTwo :
    (∀ coord, InGrid (byteGrid [4, 2]).nChunksPerDim coord →
      (leafIndexForCoord coord (byteGrid [4, 2]).nChunksPerDim .morton).toNat < 8) ∧
    ¬ ∀ coord, InGrid (byteGrid [2, 4]).nChunksPerDim coord →
      (leafIndexForCoord coord (byteGrid [2, 4]).nChunksPerDim .morton).toNat < 8 :=
  ⟨(leafIndexForCoord_lt_iff (by decide +kernel) (by decide +kernel)).mpr (by decide +kernel),
    (leafIndexForCoord_lt_iff (by decide +kernel) (by decide +kernel)).not.mpr
      (by decide +kernel)⟩

/-- The second chunk of a grid of one row has no slot in Z-order: the row of leaves ends before
it. -/
theorem leafIndexForCoord_beyond_row :
    checkedPaddedLeafCount (byteGrid [1, 2]) = .ok 2 ∧
      checkOrderBitBudget (byteGrid [1, 2]).nChunksPerDim .morton = .ok () ∧
      InGrid (byteGrid [1, 2]).nChunksPerDim [0, 1] ∧
      leafIndexForCoord [0, 1] (byteGrid [1, 2]).nChunksPerDim .morton = 2 :=
  ⟨by decide +kernel, by decide +kernel, .cons (by decide) (.cons (by decide) .nil),
    by decide +kernel⟩

end ClawHdf5.Subset
