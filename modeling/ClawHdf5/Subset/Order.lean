import ClawHdf5.Math.WordBits
import ClawHdf5.Subset.Grid

/-!
# Leaf orders

A chunk's coordinate is mapped to a leaf index in row-major order, along the Z-order
(Morton) curve or along the Hilbert curve. The curves interleave coordinate bits into one
word, so a grid is checked against the bit budget of the order first.
-/

namespace ClawHdf5.Subset

open Fallible MachineInt Merkle WordBits List UInt64

variable {nPerDim coord x : List UInt64} {k d bits ndim : ℕ}

/-- How chunk coordinates are mapped to leaf indices. -/
inductive LeafOrder | rowMajor | morton | hilbert
  deriving DecidableEq

/-- The mixed-radix index of a coordinate, the last axis fastest, in wrapping arithmetic. -/
def rowMajorIndex : List UInt64 → List UInt64 → UInt64
  | c :: coord, _ :: nPerDim =>
    c * nPerDim.foldl (fun product n => product * n) 1 + rowMajorIndex coord nPerDim
  | _, _ => 0

/-- The Z-order index: bit `k` of axis `d` goes to bit `k * ndim + d`. -/
def mortonIndex (coords : List UInt64) : UInt64 :=
  let ndim := coords.length
  if ndim = 0 then 0 else
    setBits ((range (64 / ndim)).flatMap fun k =>
      coords.zipIdx.map fun c => ((c.1 >>> UInt64.ofNat k) &&& 1 == 1, k * ndim + c.2))

/-! ### The Hilbert curve -/

/-- The bit planes the transform walks, from plane `bits - 1` down to plane 1. -/
def planes (bits : ℕ) : List ℕ := (range' 1 (bits - 1)).reverse

/-- Undo the reflection or exchange of axis `i` at bit `q`. -/
def exchange (q : UInt64) (x : List UInt64) (i : ℕ) : List UInt64 :=
  let p := q - 1
  if x.getD i 0 &&& q ≠ 0 then
    x.modify 0 (· ^^^ p)
  else
    let t := (x.getD 0 0 ^^^ x.getD i 0) &&& p
    (x.modify 0 (· ^^^ t)).modify i (· ^^^ t)

/-- Undo the reflections and exchanges of one bit plane. -/
def undoPlane (x : List UInt64) (k : ℕ) : List UInt64 :=
  (range x.length).foldl (exchange (oneBit k)) x

/-- XOR every axis with the (already encoded) axis before it. -/
def grayEncode : UInt64 → List UInt64 → List UInt64
  | _, [] => []
  | previous, v :: x => (v ^^^ previous) :: grayEncode (v ^^^ previous) x

/-- The correction read off the last axis. -/
def lastMask (bits : ℕ) (v : UInt64) : UInt64 :=
  (planes bits).foldl (fun t k => if v &&& oneBit k ≠ 0 then t ^^^ (oneBit k - 1) else t) 0

/-- Interleave the bits of the axes, most significant plane first. -/
def interleave (bits : ℕ) (x : List UInt64) : UInt64 :=
  (range bits).reverse.foldl
    (fun h k => x.foldl (fun h v => (h <<< 1) ||| ((v >>> UInt64.ofNat k) &&& 1)) h) 0

/-- The transpose of the Hilbert index: one word for each axis. -/
def axesToTranspose (bits : ℕ) (coords : List UInt64) : List UInt64 :=
  let x := grayEncode 0 ((planes bits).foldl undoPlane coords)
  x.map (· ^^^ lastMask bits (x.getD (x.length - 1) 0))

/-- The Hilbert index in a cube of side `2 ^ bits`. -/
def hilbertIndex (coords : List UInt64) (bits : ℕ) : UInt64 :=
  if coords.length = 0 ∨ bits = 0 then 0 else interleave bits (axesToTranspose bits coords)

/-- Bits needed to write `v`. -/
def bitLength (v : UInt64) : ℕ := 64 - leadingZeros v

/-- Bits for each axis of the smallest cube around the grid. -/
def hilbertBits (nPerDim : List UInt64) : ℕ :=
  let maxExtent := max (nPerDim.foldl max 0) 1
  max (bitLength (maxExtent - 1)) 1

/-! ### All orders -/

def coordToLeafIndex (coord nPerDim : List UInt64) : LeafOrder → UInt64
  | .rowMajor => rowMajorIndex coord nPerDim
  | .morton => mortonIndex coord
  | .hilbert => hilbertIndex coord (hilbertBits nPerDim)

/-- The leaf index at which whoever builds a tree has to place a chunk. -/
def leafIndexForCoord (coord nPerDim : List UInt64) (order : LeafOrder) : UInt64 :=
  coordToLeafIndex coord nPerDim order

/-- `n - 1`, stopping at zero. -/
def saturatingPred (n : UInt64) : UInt64 := if n = 0 then 0 else n - 1

/-- The largest 32-bit word. -/
def maxU32 : ℕ := 2 ^ 32 - 1

/-- Reject a grid whose coordinates cannot be interleaved into 64 bits. -/
def checkOrderBitBudget (nPerDim : List UInt64) (order : LeafOrder) : Except MerkleError Unit :=
  let rank := nPerDim.length
  if rank = 0 then .ok () else
    let rankU32 := min rank maxU32
    match order with
    | .rowMajor => .ok ()
    | .morton =>
      let perAxis := 64 / max rankU32 1
      let maxBits := (nPerDim.map fun n => bitLength (saturatingPred n)).foldl max 0
      reject (maxBits > perAxis) (.leafOrderOverflow (min (maxBits * rankU32) maxU32))
    | .hilbert =>
      let needed := min (hilbertBits nPerDim * rankU32) maxU32
      reject (needed > 64) (.leafOrderOverflow needed)

/-! ### Coordinates in a grid -/

/-- A chunk coordinate lies in a grid. -/
def InGrid (nPerDim coord : List UInt64) : Prop :=
  Forall₂ (fun n c => c.toNat < n.toNat) nPerDim coord

theorem InGrid.length_eq (h : InGrid nPerDim coord) : coord.length = nPerDim.length :=
  (Forall₂.length_eq h).symm

theorem InGrid.zero_notMem (h : InGrid nPerDim coord) : 0 ∉ nPerDim := by
  induction h with
  | nil => exact not_mem_nil
  | cons hc _ ih =>
    rw [mem_cons, not_or]
    exact ⟨fun h0 => Nat.not_lt_zero _ (h0 ▸ hc), ih⟩

/-! ### Row-major order -/

section

variable {n c : UInt64} {nPerDim coord : List UInt64}

private theorem mixedRadix_lt {c n product rest : ℕ} (hc : c < n) (hrest : rest < product) :
    c * product + rest < n * product :=
  calc c * product + rest < c * product + product := Nat.add_lt_add_left hrest _
    _ = (c + 1) * product := (Nat.succ_mul c product).symm
    _ ≤ n * product := Nat.mul_le_mul_right _ hc

/-- The mixed-radix equation, when the chunk count fits a word. -/
theorem toNat_rowMajorIndex_cons (hc : c.toNat < n.toNat)
    (hrest : (rowMajorIndex coord nPerDim).toNat < (nPerDim.map toNat).prod)
    (hprod : n.toNat * (nPerDim.map toNat).prod < 2 ^ 64) :
    (rowMajorIndex (c :: coord) (n :: nPerDim)).toNat =
      c.toNat * (nPerDim.map toNat).prod + (rowMajorIndex coord nPerDim).toNat := by
  have hlt := lt_trans (mixedRadix_lt hc hrest) hprod
  have htrailing : (nPerDim.foldl (fun product n => product * n) 1).toNat =
      (nPerDim.map toNat).prod := by
    rw [toNat_foldl_mul, toNat_one, Nat.one_mul]
    refine Nat.mod_eq_of_lt (lt_of_le_of_lt ?_ hprod)
    exact Nat.le_mul_of_pos_left _ (Nat.zero_lt_of_lt hc)
  rw [rowMajorIndex, UInt64.toNat_add, UInt64.toNat_mul, htrailing, Nat.mod_add_mod,
    Nat.mod_eq_of_lt hlt]

theorem rowMajorIndex_lt (h : InGrid nPerDim coord) (hprod : (nPerDim.map toNat).prod < 2 ^ 64) :
    (rowMajorIndex coord nPerDim).toNat < (nPerDim.map toNat).prod := by
  induction h with
  | nil => simp [rowMajorIndex]
  | @cons n c nPerDim coord hc _ ih =>
    have hrest := ih (lt_of_le_of_lt (Nat.le_mul_of_pos_left _ (Nat.zero_lt_of_lt hc)) hprod)
    rw [toNat_rowMajorIndex_cons hc hrest hprod]
    exact mixedRadix_lt hc hrest

theorem rowMajorIndex_inj {coord' : List UInt64} (h : InGrid nPerDim coord)
    (h' : InGrid nPerDim coord') (hprod : (nPerDim.map toNat).prod < 2 ^ 64)
    (heq : rowMajorIndex coord nPerDim = rowMajorIndex coord' nPerDim) : coord = coord' := by
  induction h generalizing coord' with
  | nil => exact (forall₂_nil_left_iff.mp h').symm
  | @cons n c nPerDim coord hc htail ih =>
    obtain ⟨c', front', hc', htail', rfl⟩ := forall₂_cons_left_iff.mp h'
    have hlt : (nPerDim.map toNat).prod < 2 ^ 64 :=
      lt_of_le_of_lt (Nat.le_mul_of_pos_left _ (Nat.zero_lt_of_lt hc)) hprod
    have hrest := rowMajorIndex_lt htail hlt
    have hrest' := rowMajorIndex_lt htail' hlt
    have hnat := congrArg toNat heq
    rw [toNat_rowMajorIndex_cons hc hrest hprod, toNat_rowMajorIndex_cons hc' hrest' hprod] at hnat
    obtain ⟨hdigit, hindex⟩ := RowMajor.mul_add_inj hrest hrest' hnat
    rw [UInt64.toNat_inj.mp hdigit, ih htail' hlt (UInt64.toNat_inj.mp hindex)]

end

/-! ### Z-order -/

/-- The coordinates of a cube of side `2 ^ bits`. -/
def Cube (bits ndim : ℕ) : Set (List UInt64) :=
  {x | x.length = ndim ∧ ∀ v ∈ x, v.toNat < 2 ^ bits}

/-- Coordinates of the cube with one interleaving are the same. -/
theorem Cube.eq_of_interleaves {place : ℕ → ℕ} {y : List UInt64} {w : UInt64}
    (hx : x ∈ Cube bits ndim) (hy : y ∈ Cube bits ndim) (h : Interleaves place bits x w)
    (h' : Interleaves place bits y w)
    (hplace : ∀ d < ndim, place d < ndim ∧ ∀ d' < ndim, place d' = place d → d' = d) : x = y := by
  have hlen : x.length = y.length := hx.1.trans hy.1.symm
  refine ext_getElem hlen fun d hd hd' => ?_
  refine eq_of_bits_below (hx.2 _ (getElem_mem hd)) (hy.2 _ (getElem_mem hd')) fun k hk => ?_
  have hd := getElem?_eq_getElem hd
  have hd' := getElem?_eq_getElem hd'
  exact Bool.eq_iff_iff.mpr ⟨h.bit_of_bit h' hlen (hx.1.symm ▸ hplace) hk hd hd',
    h'.bit_of_bit h hlen.symm (hy.1.symm ▸ hplace) hk hd' hd⟩

/-- A Z-order index has the axes in their order in each plane. -/
theorem mortonIndex_interleaves {coords : List UInt64} (hne : coords.length ≠ 0) :
    Interleaves id (64 / coords.length) coords (mortonIndex coords) := by
  have hbits : 64 / coords.length ≤ 64 := Nat.div_le_self 64 _
  have hflag : ∀ (c : UInt64) {k : ℕ}, k < 64 / coords.length →
      ((c >>> ofNat k) &&& 1 == 1) = bit c k := by
    intro c k hk
    rw [shiftRight_and_one c (hk.trans_le hbits)]
    cases bit c k <;> rfl
  intro j
  rw [mortonIndex, if_neg hne, bit_setBits]
  · simp only [mem_flatMap, mem_range, mem_map, mem_zipIdx_iff_getElem?, Prod.mk.injEq, Prod.exists]
    constructor
    · rintro ⟨k, hk, v, d, hv, hset, rfl⟩
      exact ⟨k, d, v, hk, hv, by rwa [hflag v hk] at hset, rfl⟩
    · rintro ⟨k, d, v, hk, hv, hset, rfl⟩
      exact ⟨k, hk, v, d, hv, by rwa [hflag v hk], rfl⟩
  · intro p hp
    simp only [mem_flatMap, mem_range, mem_map, mem_zipIdx_iff_getElem?] at hp
    obtain ⟨k, hk, c, hc, rfl⟩ := hp
    have hd : c.2 < coords.length := lt_of_getElem? hc
    have hle := Nat.mul_le_mul_right coords.length (Nat.succ_le_of_lt hk)
    have hdiv := Nat.div_mul_le_self 64 coords.length
    rw [Nat.succ_mul] at hle
    omega

/-- No two coordinates with `64 / ndim` bits on each axis share a Z-order index. -/
theorem mortonIndex_injOn (ndim : ℕ) : Set.InjOn mortonIndex (Cube (64 / ndim) ndim) := by
  intro x hx y hy h
  by_cases hne : ndim = 0
  · rw [eq_nil_of_length_eq_zero (hx.1.trans hne), eq_nil_of_length_eq_zero (hy.1.trans hne)]
  · have hinterleaves : ∀ z ∈ Cube (64 / ndim) ndim,
        Interleaves id (64 / ndim) z (mortonIndex z) := by
      rintro z ⟨rfl, -⟩
      exact mortonIndex_interleaves hne
    exact Cube.eq_of_interleaves hx hy (hinterleaves x hx) (h ▸ hinterleaves y hy)
      fun d hd => ⟨hd, fun _ _ heq => heq⟩

/-! ### The Hilbert curve is injective

Every step of the transform is injective on the coordinates of the cube and stays in it. -/

/-- A loop of steps that are injective on a set and stay in it is injective on the set. -/
theorem foldl_injOn {σ ι : Type} {step : σ → ι → σ} {S : Set σ} {is : List ι}
    (hmaps : ∀ i ∈ is, Set.MapsTo (fun s => step s i) S S)
    (hinj : ∀ i ∈ is, Set.InjOn (fun s => step s i) S) :
    Set.MapsTo (fun s => is.foldl step s) S S ∧ Set.InjOn (fun s => is.foldl step s) S := by
  induction is with
  | nil => exact ⟨Set.mapsTo_id S, Set.injOn_id S⟩
  | cons i is ih =>
    obtain ⟨hi, his⟩ := forall_mem_cons.mp hmaps
    obtain ⟨hi', his'⟩ := forall_mem_cons.mp hinj
    obtain ⟨htail, htail'⟩ := ih his his'
    exact ⟨htail.comp hi, htail'.comp hi' hi⟩

theorem mem_planes : k ∈ planes bits ↔ 0 < k ∧ k < bits := by
  simp only [planes, mem_reverse, mem_range'_1]
  omega

section

variable {k i : ℕ} {x : List UInt64} (hk : k < 64)

include hk

theorem exchange_zero (a : UInt64) (l : List UInt64) : exchange (oneBit k) (a :: l) 0 =
      (if bit a k then a ^^^ (oneBit k - 1) else a) :: l := by
  unfold exchange
  simp only [getD_cons_zero, and_oneBit_ne_zero hk, UInt64.xor_self, UInt64.zero_and,
    UInt64.xor_zero]
  split_ifs <;> rfl

theorem exchange_succ (a : UInt64) (l : List UInt64) (j : ℕ) :
    exchange (oneBit k) (a :: l) (j + 1) =
      if bit (l.getD j 0) k then (a ^^^ (oneBit k - 1)) :: l
      else (a ^^^ ((a ^^^ l.getD j 0) &&& (oneBit k - 1))) ::
        l.modify j (· ^^^ ((a ^^^ l.getD j 0) &&& (oneBit k - 1))) := by
  unfold exchange
  simp [and_oneBit_ne_zero hk]

/-- Undoing an exchange twice restores the axes: the bit that selects the case is kept. -/
theorem exchange_exchange (hi : i < x.length) :
    exchange (oneBit k) (exchange (oneBit k) x i) i = x := by
  have hcancel : ∀ v t : UInt64, v ^^^ t ^^^ t = v := fun v t => by
    rw [UInt64.xor_assoc, UInt64.xor_self, UInt64.xor_zero]
  have hkept : ∀ v t : UInt64, bit (v ^^^ (t &&& (oneBit k - 1))) k = bit v k := fun v t => by
    simp [bit_oneBit_sub_one hk]
  cases x with
  | nil => exact absurd hi (Nat.not_lt_zero i)
  | cons a l =>
    cases i with
    | zero =>
      rw [exchange_zero hk]
      by_cases ha : bit a k
      · have hkept' : bit (a ^^^ (oneBit k - 1)) k = true := by
          simp [bit_oneBit_sub_one hk, ha]
        rw [if_pos ha, exchange_zero hk, if_pos hkept', hcancel]
      · rw [if_neg ha, exchange_zero hk, if_neg ha]
    | succ j =>
      rw [exchange_succ hk]
      by_cases hb : bit (l.getD j 0) k
      · rw [if_pos hb, exchange_succ hk, if_pos hb, hcancel]
      · rw [if_neg hb]
        generalize ht : (a ^^^ l.getD j 0) &&& (oneBit k - 1) = t
        have hj : j < l.length := Nat.lt_of_succ_lt_succ hi
        have hget : (l.modify j (· ^^^ t)).getD j 0 = l.getD j 0 ^^^ t := by
          simp [hj]
        have hb' : ¬ bit (l.getD j 0 ^^^ t) k := by
          rw [← ht, hkept]
          exact hb
        -- both axes change by `t`, so their difference does not
        have hdiff : (a ^^^ t ^^^ (l.getD j 0 ^^^ t)) &&& (oneBit k - 1) = t := by
          rw [UInt64.xor_assoc, UInt64.xor_comm t, hcancel, ht]
        rw [exchange_succ hk, hget, if_neg hb', hdiff, hcancel, modify_modify_eq]
        congr 1
        convert modify_id j l using 2
        funext v
        exact hcancel v t

end

theorem modify_mem_cube {i : ℕ} {t : UInt64} (hx : x ∈ Cube bits ndim) (ht : t.toNat < 2 ^ bits) :
    x.modify i (· ^^^ t) ∈ Cube bits ndim := by
  refine ⟨by rw [length_modify, hx.1], fun v hv => ?_⟩
  obtain ⟨d, hd, rfl⟩ := getElem_of_mem hv
  rw [length_modify] at hd
  have hlt := hx.2 _ (getElem_mem hd)
  rw [getElem_modify]
  split_ifs
  · exact xor_lt_two_pow hlt ht
  · exact hlt

theorem exchange_mapsTo (hk : k < bits) (hbits : bits ≤ 64) (i : ℕ) :
    Set.MapsTo (fun x => exchange (oneBit k) x i) (Cube bits ndim) (Cube bits ndim) := by
  have hmask : ∀ t : UInt64, (t &&& (oneBit k - 1)).toNat < 2 ^ bits := fun t => by
    rw [lt_two_pow_iff]
    intro j hj
    simp [bit_oneBit_sub_one (hk.trans_le hbits), (hk.trans_le hj).not_gt]
  intro x hx
  dsimp only [exchange]
  split_ifs
  · refine modify_mem_cube hx ?_
    rw [← UInt64.and_self (a := oneBit k - 1)]
    exact hmask _
  · exact modify_mem_cube (modify_mem_cube hx (hmask _)) (hmask _)

theorem exchange_injOn {i : ℕ} (hk : k < 64) (hi : i < ndim) :
    Set.InjOn (fun x => exchange (oneBit k) x i) (Cube bits ndim) := by
  intro x hx y hy h
  dsimp only at h
  rw [← exchange_exchange hk (hx.1.symm ▸ hi : i < x.length), h,
    exchange_exchange hk (hy.1.symm ▸ hi : i < y.length)]

theorem undoPlanes_injOn (ndim : ℕ) (hbits : bits ≤ 64) :
    Set.MapsTo (fun x => (planes bits).foldl undoPlane x) (Cube bits ndim) (Cube bits ndim) ∧
      Set.InjOn (fun x => (planes bits).foldl undoPlane x) (Cube bits ndim) := by
  -- on the cube the axis loop has a fixed range
  have hplane : ∀ k, Set.EqOn (fun x => (range ndim).foldl (exchange (oneBit k)) x)
      (fun x => undoPlane x k) (Cube bits ndim) := by
    intro k x hx
    dsimp only [undoPlane]
    rw [hx.1]
  have hstep : ∀ k ∈ planes bits,
      Set.MapsTo (fun x => undoPlane x k) (Cube bits ndim) (Cube bits ndim) ∧
        Set.InjOn (fun x => undoPlane x k) (Cube bits ndim) := by
    intro k hk
    have hlt := (mem_planes.mp hk).2
    obtain ⟨hmaps, hinj⟩ := foldl_injOn (fun i _ => exchange_mapsTo hlt hbits i)
      fun i hi => exchange_injOn (hlt.trans_le hbits) (mem_range.mp hi)
    exact ⟨hmaps.congr (hplane k), hinj.congr (hplane k)⟩
  exact foldl_injOn (fun k hk => (hstep k hk).1) fun k hk => (hstep k hk).2

/-! #### Gray code -/

theorem grayEncode_mem {previous : UInt64} (hprevious : previous.toNat < 2 ^ bits)
    (hx : x ∈ Cube bits x.length) :
    grayEncode previous x ∈ Cube bits x.length := by
  induction x generalizing previous with
  | nil => exact hx
  | cons v x ih =>
    obtain ⟨hv, htail⟩ := forall_mem_cons.mp hx.2
    have hlt := xor_lt_two_pow hv hprevious
    obtain ⟨hlen, hall⟩ := ih hlt ⟨rfl, htail⟩
    exact ⟨congrArg (· + 1) hlen, forall_mem_cons.mpr ⟨hlt, hall⟩⟩

theorem grayEncode_inj {previous : UInt64} {y : List UInt64}
    (h : grayEncode previous x = grayEncode previous y) : x = y := by
  induction x generalizing previous y with
  | nil =>
    cases y with
    | nil => rfl
    | cons w y => exact absurd h (cons_ne_nil _ _).symm
  | cons v x ih =>
    cases y with
    | nil => exact absurd h (cons_ne_nil _ _)
    | cons w y =>
      obtain ⟨hhead, htail⟩ := cons.inj h
      have hvw : v = w := xor_left_inj previous |>.mp hhead
      rw [hvw] at htail ⊢
      rw [ih htail]

/-! #### The correction by the last axis -/

private theorem bit_foldl_mask {ks : List ℕ} (hks : ∀ k ∈ ks, k < 64) (hnodup : ks.Nodup)
    (v t : UInt64) (j : ℕ) :
    let w := ks.foldl (fun t k => if v &&& oneBit k ≠ 0 then t ^^^ (oneBit k - 1) else t) t
    (bit w j ^^ bit w (j + 1)) =
      ((bit t j ^^ bit t (j + 1)) ^^ (decide (j + 1 ∈ ks) && bit v (j + 1))) := by
  induction ks generalizing t with
  | nil => simp
  | cons k ks ih =>
    obtain ⟨hk, hks⟩ := forall_mem_cons.mp hks
    obtain ⟨hnot, hnodup⟩ := nodup_cons.mp hnodup
    rw [foldl_cons]
    refine (ih hks hnodup _).trans ?_
    by_cases hv : bit v k
    · rw [if_pos ((and_oneBit_ne_zero hk).mpr hv)]
      by_cases hjk : j + 1 = k
      · simp [bit_oneBit_sub_one hk, hjk, hnot, hv, Nat.lt_of_succ_le hjk.le]
      · -- away from `k` the mask does not change between neighbouring bits
        have hsame : decide (j < k) = decide (j + 1 < k) := by
          rw [decide_eq_decide]
          omega
        cases hj : bit t j <;> cases hj' : bit t (j + 1) <;>
          simp [bit_oneBit_sub_one hk, hjk, hsame, hj, hj']
    · rw [if_neg (fun h => hv ((and_oneBit_ne_zero hk).mp h))]
      by_cases hjk : j + 1 = k
      · simp [hjk, hv]
      · simp [hjk]

/-- The correction does not reach the highest plane. -/
theorem lastMask_lt_half (hbits : bits ≤ 64) (v : UInt64) :
    (lastMask bits v).toNat < 2 ^ (bits - 1) := by
  refine foldlRecOn (motive := fun t : UInt64 => t.toNat < 2 ^ (bits - 1)) (planes bits) _
    (by simp) fun t ht k hk => ?_
  split_ifs
  · refine xor_lt_two_pow ht (lt_two_pow_iff.mpr fun j hj => ?_)
    have hlt := (mem_planes.mp hk).2
    rw [bit_oneBit_sub_one (hlt.trans_le hbits)]
    exact decide_eq_false (by omega)
  · exact ht

theorem lastMask_lt (hbits : bits ≤ 64) (v : UInt64) : (lastMask bits v).toNat < 2 ^ bits :=
  (lastMask_lt_half hbits v).trans_le (Nat.pow_le_pow_right two_pos (Nat.sub_le _ _))

/-- The corrected last axis determines the original one: its bits are the parities of
neighbouring bits. -/
theorem bit_xor_lastMask {v : UInt64} (hbits : bits ≤ 64) (hv : v.toNat < 2 ^ bits) (j : ℕ) :
    (bit (v ^^^ lastMask bits v) j ^^ bit (v ^^^ lastMask bits v) (j + 1)) = bit v j := by
  have hnodup : (planes bits).Nodup := nodup_reverse.mpr (nodup_range' (h := by decide))
  have hmask : (bit (lastMask bits v) j ^^ bit (lastMask bits v) (j + 1)) =
      (decide (j + 1 ∈ planes bits) && bit v (j + 1)) := by
    refine (bit_foldl_mask (fun k hk => lt_of_lt_of_le (mem_planes.mp hk).2 hbits) hnodup
      v 0 j).trans ?_
    simp
  have hhigh : (decide (j + 1 ∈ planes bits) && bit v (j + 1)) = bit v (j + 1) := by
    by_cases hj : j + 1 < bits
    · simp [mem_planes, hj]
    · simp [lt_two_pow_iff.mp hv (j + 1) (not_lt.mp hj)]
  rw [hhigh] at hmask
  have hcancel : ∀ a b c d : Bool, (c ^^ d) = b → ((a ^^ c) ^^ (b ^^ d)) = a := by decide
  rw [bit_xor, bit_xor]
  exact hcancel _ _ _ _ hmask

theorem correct_injOn (hbits : bits ≤ 64) :
    Set.InjOn (fun x : List UInt64 => x.map (· ^^^ lastMask bits (x.getD (x.length - 1) 0)))
      (Cube bits ndim) := by
  intro x hx y hy h
  dsimp only at h
  have hlen : x.length = y.length := hx.1.trans hy.1.symm
  have hlast : x.getD (x.length - 1) 0 = y.getD (y.length - 1) 0 := by
    by_cases hpos : 0 < x.length
    · have hi : x.length - 1 < x.length := Nat.sub_lt hpos one_pos
      have hi' : x.length - 1 < y.length := hlen ▸ hi
      have hentry := congrArg (fun l => l.getD (x.length - 1) 0) h
      rw [← hlen] at hentry ⊢
      simp only [getD_eq_getElem?_getD, getElem?_map, getElem?_eq_getElem hi,
        getElem?_eq_getElem hi', Option.map_some, Option.getD_some] at hentry ⊢
      refine ext_bits fun j => ?_
      rw [← bit_xor_lastMask hbits (hx.2 _ (getElem_mem hi)) j, hentry,
        bit_xor_lastMask hbits (hy.2 _ (getElem_mem hi')) j]
    · have hx0 : x = [] := eq_nil_of_length_eq_zero (Nat.eq_zero_of_not_pos hpos)
      have hy0 : y = [] := eq_nil_of_length_eq_zero (by rw [← hlen, hx0, length_nil])
      rw [hx0, hy0]
  rw [hlast] at h
  exact map_injective_iff.mpr (fun v w hvw => (xor_left_inj _).mp hvw) h

/-- The transform to transposed form is injective and stays in the cube. -/
theorem axesToTranspose_injOn (ndim : ℕ) (hbits : bits ≤ 64) :
    Set.MapsTo (axesToTranspose bits) (Cube bits ndim) (Cube bits ndim) ∧
      Set.InjOn (axesToTranspose bits) (Cube bits ndim) := by
  obtain ⟨hmaps, hinj⟩ := undoPlanes_injOn ndim hbits
  have hgray : Set.MapsTo (grayEncode 0) (Cube bits ndim) (Cube bits ndim) := by
    rintro x ⟨rfl, hx⟩
    exact grayEncode_mem (Nat.two_pow_pos bits) ⟨rfl, hx⟩
  have hcorrect : Set.MapsTo
      (fun x : List UInt64 => x.map (· ^^^ lastMask bits (x.getD (x.length - 1) 0)))
      (Cube bits ndim) (Cube bits ndim) := by
    intro x hx
    refine ⟨by rw [length_map, hx.1], fun v hv => ?_⟩
    obtain ⟨w, hw, rfl⟩ := mem_map.mp hv
    exact xor_lt_two_pow (hx.2 w hw) (lastMask_lt hbits _)
  exact ⟨hcorrect.comp (hgray.comp hmaps),
    (correct_injOn hbits).comp (Set.InjOn.comp (fun _ _ _ _ => grayEncode_inj) hinj hmaps)
      (hgray.comp hmaps)⟩

/-! #### Interleaving -/

theorem interleave_eq_shiftIn (hbits : bits ≤ 64) (x : List UInt64) : interleave bits x =
      shiftIn ((range bits).reverse.flatMap fun k => x.map fun v => bit v k) := by
  rw [interleave, shiftIn, foldl_flatMap]
  refine foldl_ext _ _ _ fun h k hk => ?_
  have hk' : k < 64 := lt_of_lt_of_le (mem_range.mp (mem_reverse.mp hk)) hbits
  simp only [foldl_map, shiftRight_and_one _ hk']

/-- Interleaving puts the axes in reverse order in each plane. -/
theorem interleave_interleaves {x : List UInt64} (hbudget : bits * x.length ≤ 64)
    (hbits : bits ≤ 64) :
    Interleaves (fun d => x.length - 1 - d) bits x (interleave bits x) := by
  have hblock : ∀ k, ((x.map fun v => bit v k).reverse).length = x.length := by
    intro k
    rw [length_reverse, length_map]
  have hlen : ((range bits).reverse.flatMap fun k => x.map fun v => bit v k).length ≤ 64 := by
    simpa using hbudget
  intro j
  rw [interleave_eq_shiftIn hbits, bit_shiftIn hlen, reverse_flatMap, reverse_reverse]
  refine (getElem?_blocks hblock).trans ?_
  constructor
  · rintro ⟨k, r, hk, hr, rfl⟩
    have hrn : r < x.length := hblock k ▸ lt_of_getElem? hr
    rw [getElem?_reverse (by rwa [length_map]), length_map, getElem?_map,
      Option.map_eq_some_iff] at hr
    obtain ⟨v, hv, hset⟩ := hr
    exact ⟨k, x.length - 1 - r, v, hk, hv, hset, by dsimp only; omega⟩
  · rintro ⟨k, d, v, hk, hv, hset, rfl⟩
    have hd : d < x.length := lt_of_getElem? hv
    refine ⟨k, x.length - 1 - d, hk, ?_, rfl⟩
    rw [getElem?_reverse (by rw [length_map]; omega), length_map,
      show x.length - 1 - (x.length - 1 - d) = d by omega, getElem?_map, hv]
    exact congrArg some hset

theorem interleave_injOn (hbits : bits ≤ 64) (hbudget : bits * ndim ≤ 64) :
    Set.InjOn (interleave bits) (Cube bits ndim) := by
  intro x hx y hy h
  have hx' := interleave_interleaves (x := x) (hx.1.symm ▸ hbudget) hbits
  have hy' := interleave_interleaves (x := y) (hy.1.symm ▸ hbudget) hbits
  rw [hx.1] at hx'
  rw [hy.1, ← h] at hy'
  exact Cube.eq_of_interleaves hx hy hx' hy' fun d hd => ⟨by omega, fun d' hd' => by omega⟩

/-- No two coordinates of the cube share a Hilbert index within the bit budget. -/
theorem hilbertIndex_injOn (hpos : 0 < bits) (hndim : 0 < ndim) (hbudget : bits * ndim ≤ 64) :
    Set.InjOn (fun coords => hilbertIndex coords bits) (Cube bits ndim) := by
  have hbits : bits ≤ 64 := (Nat.le_mul_of_pos_right bits hndim).trans hbudget
  obtain ⟨hmaps, hinj⟩ := axesToTranspose_injOn ndim hbits
  refine ((interleave_injOn hbits hbudget).comp hinj hmaps).congr fun x hx => ?_
  have hne : ¬ (x.length = 0 ∨ bits = 0) := by
    rw [hx.1]
    omega
  rw [hilbertIndex, if_neg hne, Function.comp_apply]

/-! ### The bit budget -/

theorem bitLength_of_ne_zero {v : UInt64} (h : v ≠ 0) : bitLength v = Nat.log2 v.toNat + 1 := by
  have hne : v.toNat ≠ 0 := fun h0 => h (UInt64.toNat_inj.mp h0)
  have hlog : Nat.log2 v.toNat < 64 := (Nat.log2_lt hne).mpr v.toNat_lt
  rw [bitLength, leadingZeros, if_neg h]
  omega

theorem lt_two_pow_bitLength (v : UInt64) : v.toNat < 2 ^ bitLength v := by
  by_cases h : v = 0
  · rw [h]
    exact Nat.two_pow_pos _
  · rw [bitLength_of_ne_zero h]
    exact Nat.lt_log2_self

theorem InGrid.exists_mem (h : InGrid nPerDim coord) {c : UInt64} (hc : c ∈ coord) :
    ∃ n ∈ nPerDim, c.toNat < n.toNat := by
  induction h with
  | nil => exact absurd hc not_mem_nil
  | @cons n c' _ _ hlt _ ih =>
    rcases mem_cons.mp hc with rfl | hc
    · exact ⟨n, mem_cons_self, hlt⟩
    · obtain ⟨m, hm, hcm⟩ := ih hc
      exact ⟨m, mem_cons_of_mem _ hm, hcm⟩

theorem InGrid.mem_hilbertCube (h : InGrid nPerDim coord) :
    coord ∈ Cube (hilbertBits nPerDim) nPerDim.length := by
  refine ⟨h.length_eq, fun c hc => ?_⟩
  obtain ⟨n, hn, hlt⟩ := h.exists_mem hc
  have hextent : n.toNat ≤ (max (nPerDim.foldl max 0) 1).toNat := by
    rw [toNat_max]
    exact (toNat_le_foldl_max hn 0).trans (le_max_left _ _)
  have hone : (1 : UInt64) ≤ max (nPerDim.foldl max 0) 1 := by
    rw [le_iff_toNat_le, toNat_max]
    exact le_max_right _ _
  have hpred := UInt64.toNat_sub_of_le _ _ hone
  rw [toNat_one] at hpred
  have hle : c.toNat ≤ (max (nPerDim.foldl max 0) 1 - 1).toNat := by omega
  calc c.toNat ≤ (max (nPerDim.foldl max 0) 1 - 1).toNat := hle
    _ < 2 ^ bitLength (max (nPerDim.foldl max 0) 1 - 1) := lt_two_pow_bitLength _
    _ ≤ 2 ^ hilbertBits nPerDim := Nat.pow_le_pow_right two_pos (le_max_left _ _)

/-- A grid within the Morton budget has `64 / rank` bits on each axis. -/
theorem InGrid.mem_mortonCube (h : InGrid nPerDim coord)
    (hbudget : (nPerDim.map fun n => bitLength (saturatingPred n)).foldl max 0 ≤ 64 /
      nPerDim.length) :
    coord ∈ Cube (64 / nPerDim.length) nPerDim.length := by
  refine ⟨h.length_eq, fun c hc => ?_⟩
  obtain ⟨n, hn, hlt⟩ := h.exists_mem hc
  have hne : n ≠ 0 := fun h0 => Nat.not_lt_zero _ (h0 ▸ hlt)
  have hpred : (saturatingPred n).toNat = n.toNat - 1 := by
    rw [saturatingPred, if_neg hne, toNat_sub_one hne]
  have hle : c.toNat ≤ (saturatingPred n).toNat := by omega
  calc c.toNat ≤ (saturatingPred n).toNat := hle
    _ < 2 ^ bitLength (saturatingPred n) := lt_two_pow_bitLength _
    _ ≤ 2 ^ (64 / nPerDim.length) := Nat.pow_le_pow_right two_pos
      ((le_foldl_max (.inl (mem_map_of_mem hn))).trans hbudget)

/-- A word count that was clamped before division or multiplication. -/
private theorem div_min_maxU32 {rank : ℕ} (hrank : rank ≠ 0) :
    64 / max (min rank maxU32) 1 = 64 / rank := by
  by_cases hle : rank ≤ maxU32
  · rw [min_eq_left hle, max_eq_left (Nat.one_le_iff_ne_zero.mpr hrank)]
  · have hmin : min rank maxU32 = maxU32 := min_eq_right (Nat.le_of_not_le hle)
    have hlt : 64 < rank := lt_of_lt_of_le (by decide) (Nat.le_of_not_le hle)
    rw [hmin, Nat.div_eq_of_lt hlt]
    decide

private theorem mul_le_of_min_le {rank : ℕ} (hbits : 0 < bits)
    (h : min (bits * min rank maxU32) maxU32 ≤ 64) : bits * rank ≤ 64 := by
  have hfit : bits * min rank maxU32 ≤ 64 := (min_le_iff.mp h).resolve_right (by decide)
  have hle : min rank maxU32 ≤ 64 := (Nat.le_mul_of_pos_left _ hbits).trans hfit
  have hrank : min rank maxU32 = rank :=
    min_eq_left ((min_le_iff.mp hle).elim (fun h => h.trans (by decide)) fun h =>
      absurd h (by decide))
  rwa [hrank] at hfit

theorem checkOrderBitBudget_rowMajor (nPerDim : List UInt64) :
    checkOrderBitBudget nPerDim .rowMajor = .ok () := by
  exact ite_self _

theorem mortonBudget_of_check (hrank : nPerDim.length ≠ 0)
    (h : checkOrderBitBudget nPerDim .morton = .ok ()) :
    (nPerDim.map fun n => bitLength (saturatingPred n)).foldl max 0 ≤ 64 / nPerDim.length := by
  unfold checkOrderBitBudget at h
  rw [if_neg hrank] at h
  simpa only [reject_eq_ok, not_lt, div_min_maxU32 hrank] using h

theorem hilbertBudget_of_check (hrank : nPerDim.length ≠ 0)
    (h : checkOrderBitBudget nPerDim .hilbert = .ok ()) :
    hilbertBits nPerDim * nPerDim.length ≤ 64 := by
  unfold checkOrderBitBudget at h
  rw [if_neg hrank] at h
  simp only [reject_eq_ok, not_lt] at h
  exact mul_le_of_min_le (lt_of_lt_of_le one_pos (le_max_right _ _)) h

/-- Within the budget of the order, no two chunks of a grid share a leaf index. -/
theorem coordToLeafIndex_inj {coord' : List UInt64} {order : LeafOrder}
    (hbudget : checkOrderBitBudget nPerDim order = .ok ())
    (hprod : order = .rowMajor → (nPerDim.map toNat).prod < 2 ^ 64)
    (h : InGrid nPerDim coord) (h' : InGrid nPerDim coord')
    (heq : coordToLeafIndex coord nPerDim order = coordToLeafIndex coord' nPerDim order) :
    coord = coord' := by
  by_cases hrank : nPerDim.length = 0
  · have hnil : ∀ {c : List UInt64}, InGrid nPerDim c → c = [] := fun hc =>
      eq_nil_of_length_eq_zero (hc.length_eq.trans hrank)
    rw [hnil h, hnil h']
  · cases order with
    | rowMajor => exact rowMajorIndex_inj h h' (hprod rfl) heq
    | morton =>
      have hbits := mortonBudget_of_check hrank hbudget
      exact mortonIndex_injOn _ (h.mem_mortonCube hbits) (h'.mem_mortonCube hbits) heq
    | hilbert =>
      have hpos : 0 < hilbertBits nPerDim := lt_of_lt_of_le one_pos (le_max_right _ _)
      exact hilbertIndex_injOn hpos (pos_of_ne_zero hrank)
        (hilbertBudget_of_check hrank hbudget) h.mem_hilbertCube h'.mem_hilbertCube heq

/-- Leaf orders are injective on a grid within their budget. Row-major order needs the number of
chunks to fit a word. -/
theorem leafIndexForCoord_injOn {nPerDim : List UInt64} {order : LeafOrder}
    (hbudget : checkOrderBitBudget nPerDim order = .ok ())
    (hprod : order = .rowMajor → (nPerDim.map UInt64.toNat).prod < 2 ^ 64) :
    Set.InjOn (fun coord => leafIndexForCoord coord nPerDim order)
      {coord | InGrid nPerDim coord} :=
  fun _ h _ h' heq => coordToLeafIndex_inj hbudget hprod h h' heq

/-- The Hilbert order on a grid that is no cube. -/
theorem leafIndexForCoord_injOn_threeByFive :
    Set.InjOn (fun coord => leafIndexForCoord coord [3, 5] .hilbert)
      {coord | InGrid [3, 5] coord} :=
  leafIndexForCoord_injOn (by decide +kernel) fun h => absurd h (by decide)

end ClawHdf5.Subset
