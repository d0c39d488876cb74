import Mathlib.Data.List.Basic
import Mathlib.Data.List.Induction
import Mathlib.Data.Nat.Bitwise
import ClawHdf5.Math.RowMajor

/-!
# Bits of 64-bit words

A word is determined by its bits, so identities between bitwise expressions reduce to
Boolean ones. Two ways to assemble a word from bits are treated: setting bits at given
places, and shifting bits in from the right.
-/

namespace ClawHdf5.WordBits

open List Nat UInt64

variable {x y : UInt64} {k n : ℕ} {bits : List Bool}

/-- Bit `k` of a word, the least significant first. -/
def bit (x : UInt64) (k : ℕ) : Bool := x.toNat.testBit k

/-- The word with only bit `k` set. -/
def oneBit (k : ℕ) : UInt64 := 1 <<< UInt64.ofNat k

theorem ext_bits (h : ∀ k, bit x k = bit y k) : x = y := UInt64.toNat_inj.mp (eq_of_testBit_eq h)

@[simp] theorem bit_zero (k : ℕ) : bit 0 k = false := zero_testBit k

@[simp] theorem bit_xor (x y : UInt64) (k : ℕ) : bit (x ^^^ y) k = (bit x k ^^ bit y k) := by
  simp [bit]

@[simp] theorem bit_and (x y : UInt64) (k : ℕ) : bit (x &&& y) k = (bit x k && bit y k) := by
  simp [bit]

@[simp] theorem bit_or (x y : UInt64) (k : ℕ) : bit (x ||| y) k = (bit x k || bit y k) := by
  simp [bit]

theorem toNat_ofNat_of_lt (hk : k < 64) : (ofNat k).toNat = k :=
  toNat_ofNat_of_lt' (lt_trans hk (by decide))

theorem toNat_oneBit (hk : k < 64) : (oneBit k).toNat = 2 ^ k := by
  rw [oneBit, UInt64.toNat_shiftLeft, toNat_ofNat_of_lt hk, mod_eq_of_lt hk,
    toNat_one, one_shiftLeft]
  exact mod_eq_of_lt (Nat.pow_lt_pow_right (by decide) hk)

theorem bit_oneBit (hk : k < 64) (j : ℕ) : bit (oneBit k) j = decide (k = j) := by
  rw [bit, toNat_oneBit hk, testBit_two_pow]

theorem bit_oneBit_sub_one (hk : k < 64) (j : ℕ) : bit (oneBit k - 1) j = decide (j < k) := by
  have hone : (1 : UInt64) ≤ oneBit k := by
    rw [le_iff_toNat_le, toNat_oneBit hk]
    exact Nat.one_le_two_pow
  rw [bit, UInt64.toNat_sub_of_le _ _ hone, toNat_oneBit hk, toNat_one, testBit_two_pow_sub_one]

theorem and_oneBit_ne_zero (hk : k < 64) : x &&& oneBit k ≠ 0 ↔ bit x k = true := by
  constructor
  · intro h
    by_contra hbit
    refine h (ext_bits fun j => ?_)
    rw [bit_and, bit_oneBit hk, bit_zero]
    by_cases hj : k = j
    · rw [← hj, Bool.eq_false_iff.mpr hbit, Bool.false_and]
    · simp [hj]
  · intro hbit h
    have := congrArg (fun w => bit w k) h
    simp [bit_oneBit hk, hbit] at this

theorem shiftRight_and_one (x : UInt64) (hk : k < 64) :
    (x >>> ofNat k) &&& 1 = if bit x k then 1 else 0 := by
  apply UInt64.toNat_inj.mp
  rw [UInt64.toNat_and, UInt64.toNat_shiftRight, toNat_ofNat_of_lt hk, mod_eq_of_lt hk,
    shiftRight_eq_div_pow, bit, testBit_eq_decide_div_mod_eq]
  rcases mod_two_eq_zero_or_one (x.toNat / 2 ^ k) with h | h <;> simp [h]

theorem lt_two_pow_iff : x.toNat < 2 ^ n ↔ ∀ k, n ≤ k → bit x k = false := by
  constructor
  · intro h k hk
    exact testBit_lt_two_pow (h.trans_le (Nat.pow_le_pow_right (by decide) hk))
  · intro h
    exact lt_pow_two_of_testBit _ h

theorem eq_of_bits_below (hx : x.toNat < 2 ^ n) (hy : y.toNat < 2 ^ n)
    (h : ∀ k < n, bit x k = bit y k) : x = y := by
  refine ext_bits fun k => ?_
  by_cases hk : k < n
  · exact h k hk
  · rw [lt_two_pow_iff.mp hx k (not_lt.mp hk), lt_two_pow_iff.mp hy k (not_lt.mp hk)]

theorem xor_lt_two_pow (hx : x.toNat < 2 ^ n) (hy : y.toNat < 2 ^ n) : (x ^^^ y).toNat < 2 ^ n := by
  exact Nat.xor_lt_two_pow hx hy

/-! ### Setting bits -/

/-- Set the bits at the places listed with a true flag. -/
def setBits (places : List (Bool × ℕ)) : UInt64 :=
  places.foldl (fun result p => if p.1 then result ||| oneBit p.2 else result) 0

private theorem bit_foldl_set {places : List (Bool × ℕ)} (h : ∀ p ∈ places, p.2 < 64)
    (x : UInt64) (k : ℕ) :
    bit (places.foldl (fun result p => if p.1 then result ||| oneBit p.2 else result) x) k =
      true ↔ bit x k = true ∨ (true, k) ∈ places := by
  induction places generalizing x with
  | nil => simp
  | cons p places ih =>
    obtain ⟨hp, hplaces⟩ := forall_mem_cons.mp h
    obtain ⟨flag, place⟩ := p
    rw [foldl_cons, ih hplaces]
    cases flag with
    | false => simp
    | true =>
      simp [bit_oneBit hp, eq_comm (a := k), or_assoc]

theorem bit_setBits {places : List (Bool × ℕ)} (h : ∀ p ∈ places, p.2 < 64) (k : ℕ) :
    bit (setBits places) k = true ↔ (true, k) ∈ places := by
  rw [setBits, bit_foldl_set h]
  simp

/-! ### Shifting bits in -/

/-- Shift bits in from the right, first bit first. -/
def shiftIn (bits : List Bool) : UInt64 :=
  bits.foldl (fun h b => (h <<< 1) ||| (if b then 1 else 0)) 0

theorem shiftIn_concat (bits : List Bool) (b : Bool) :
    shiftIn (bits ++ [b]) = (shiftIn bits <<< 1) ||| (if b then 1 else 0) := by
  simp [shiftIn]

/-- As long as they fit, the bits are the digits of a number. -/
theorem toNat_shiftIn_concat {b : Bool} (hbits : (shiftIn bits).toNat < 2 ^ 63) :
    (shiftIn (bits ++ [b])).toNat = 2 * (shiftIn bits).toNat + b.toNat := by
  have hshift : (shiftIn bits <<< 1).toNat = (shiftIn bits).toNat <<< 1 := by
    rw [UInt64.toNat_shiftLeft, toNat_one, mod_eq_of_lt (by decide : 1 < 64)]
    omega
  have hb : (if b then 1 else 0 : UInt64).toNat = b.toNat := by cases b <;> rfl
  rw [shiftIn_concat, UInt64.toNat_or, hshift, hb,
    ← shiftLeft_add_eq_or_of_lt (b.toNat_lt.trans_le (by decide)), shiftLeft_eq, mul_comm]

theorem toNat_shiftIn_lt (h : bits.length ≤ 64) : (shiftIn bits).toNat < 2 ^ bits.length := by
  induction bits using reverseRecOn with
  | nil => simp [shiftIn]
  | append_singleton bits b ih =>
    rw [length_append, length_singleton] at h ⊢
    have hlt := ih (le_of_succ_le h)
    have hpow : 2 ^ bits.length ≤ 2 ^ 63 := Nat.pow_le_pow_right (by decide) (by omega)
    rw [toNat_shiftIn_concat (hlt.trans_le hpow)]
    have := b.toNat_lt
    omega

/-- The last bit shifted in is the lowest one of the word. -/
theorem bit_shiftIn (h : bits.length ≤ 64) (j : ℕ) :
    bit (shiftIn bits) j = true ↔ bits.reverse[j]? = some true := by
  induction bits using reverseRecOn generalizing j with
  | nil => simp [shiftIn]
  | append_singleton bits b ih =>
    rw [length_append, length_singleton] at h
    have hpow : 2 ^ bits.length ≤ 2 ^ 63 := Nat.pow_le_pow_right (by decide) (by omega)
    have hlt := lt_of_lt_of_le (toNat_shiftIn_lt (le_of_succ_le h)) hpow
    rw [reverse_append, reverse_singleton, singleton_append, bit, toNat_shiftIn_concat hlt]
    cases j with
    | zero =>
      cases b <;> simp
    | succ j =>
      have hb := b.toNat_lt
      rw [testBit_succ, show (2 * (shiftIn bits).toNat + b.toNat) / 2 = (shiftIn bits).toNat by
        omega]
      exact ih (le_of_succ_le h) j

/-! ### Interleaving words -/

/-- The bits set in `w` are those of the words `x`: bit `k` of word `d` stands in plane `k`, at the
place of `d` among the words. -/
def Interleaves (place : ℕ → ℕ) (bits : ℕ) (x : List UInt64) (w : UInt64) : Prop :=
  ∀ j, bit w j = true ↔
    ∃ k d v, k < bits ∧ x[d]? = some v ∧ bit v k = true ∧ j = k * x.length + place d

/-- An interleaved word is as small as the highest place of a bit. -/
theorem Interleaves.lt_two_pow_iff {place : ℕ → ℕ} {bits : ℕ} {x : List UInt64} {w : UInt64}
    (h : Interleaves place bits x w) :
    w.toNat < 2 ^ n ↔ ∀ k < bits, ∀ d v, x[d]? = some v → bit v k = true →
      k * x.length + place d < n := by
  rw [WordBits.lt_two_pow_iff]
  constructor
  · intro hbits k hk d v hv hbit
    by_contra hge
    have hset := (h _).mpr ⟨k, d, v, hk, hv, hbit, rfl⟩
    rw [hbits _ (not_lt.mp hge)] at hset
    exact Bool.false_ne_true hset
  · intro hplaces j hj
    rw [Bool.eq_false_iff]
    intro hset
    obtain ⟨k, d, v, hk, hv, hbit, rfl⟩ := (h j).mp hset
    exact absurd (hplaces k hk d v hv hbit) (not_lt.mpr hj)

/-- Words with one interleaving have the same bits, if no two of them share a place. -/
theorem Interleaves.bit_of_bit {place : ℕ → ℕ} {bits d : ℕ} {x y : List UInt64} {w v u : UInt64}
    (hx : Interleaves place bits x w) (hy : Interleaves place bits y w) (hlen : x.length = y.length)
    (hplace : ∀ d < x.length, place d < x.length ∧ ∀ d' < x.length, place d' = place d → d' = d)
    (hk : k < bits) (hv : x[d]? = some v) (hu : y[d]? = some u) (hset : bit v k = true) :
    bit u k = true := by
  obtain ⟨k', d', u', -, hu', hset', heq⟩ := (hy _).mp ((hx _).mpr ⟨k, d, v, hk, hv, hset, rfl⟩)
  have hd := (List.getElem?_eq_some_iff.mp hv).1
  have hd' := (List.getElem?_eq_some_iff.mp hu').1
  rw [← hlen] at heq hd'
  obtain ⟨rfl, hsame⟩ := RowMajor.mul_add_inj (hplace d hd).1 (hplace d' hd').1 heq
  obtain rfl := (hplace d' hd').2 d hd hsame
  rwa [Option.some.inj (hu.symm.trans hu')]

/-- An entry of a row of equally long blocks. -/
theorem getElem?_blocks {α : Type*} {f : ℕ → List α} (hf : ∀ k, (f k).length = n) {m j : ℕ} {a : α}
    : ((range m).flatMap f)[j]? = some a ↔ ∃ k r, k < m ∧ (f k)[r]? = some a ∧ j = k * n + r := by
  have hlen : ∀ m, ((range m).flatMap f).length = m * n := by
    simp [hf]
  induction m with
  | zero => simp
  | succ m ih =>
    rw [range_succ, flatMap_append, flatMap_singleton]
    constructor
    · intro hj
      rcases lt_or_ge j (m * n) with hlt | hge
      · rw [getElem?_append_left (by rwa [hlen])] at hj
        obtain ⟨k, r, hk, hr, rfl⟩ := ih.mp hj
        exact ⟨k, r, lt_succ_of_lt hk, hr, rfl⟩
      · rw [getElem?_append_right (by rwa [hlen]), hlen] at hj
        exact ⟨m, j - m * n, lt_succ_self m, hj, by omega⟩
    · rintro ⟨k, r, hk, hr, rfl⟩
      have hrn : r < n := hf k ▸ (List.getElem?_eq_some_iff.mp hr).1
      rcases Nat.lt_succ_iff_lt_or_eq.mp hk with hlt | rfl
      · have hle : (k + 1) * n ≤ m * n := mul_le_mul_right n hlt
        rw [succ_mul] at hle
        rw [getElem?_append_left (by rw [hlen]; omega)]
        exact ih.mpr ⟨k, r, hlt, hr, rfl⟩
      · rw [getElem?_append_right (by rw [hlen]; omega), hlen, Nat.add_sub_cancel_left, hr]

end ClawHdf5.WordBits
