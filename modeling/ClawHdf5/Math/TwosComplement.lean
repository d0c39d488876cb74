import ClawHdf5.Math.Bytes
import ClawHdf5.Math.WordBits
import Mathlib.Tactic.Linarith

/-!
# Integers in two's complement

An integer of `w` bytes is stored modulo `256 ^ w`, and a 64-bit word stands for every integer that
has its bits. Arithmetic on words is arithmetic on the integers they stand for, and an integer that
fits into a field is recovered from the field by extending its sign.
-/

namespace ClawHdf5.TwosComplement

open Bytes WordBits UInt64

/-- The integer fits into `w` bytes, one bit of which is its sign if it has one. -/
def FitsIn (signed : Bool) (w : ℕ) (x : ℤ) : Prop :=
  if signed then -256 ^ w ≤ 2 * x ∧ 2 * x < 256 ^ w else 0 ≤ x ∧ x < 256 ^ w
  deriving Decidable

/-- The field of an integer, `w` bytes in little-endian order. -/
def intBytes (w : ℕ) (x : ℤ) : Bytes := leBytes w (x % 256 ^ w).toNat

@[simp] theorem length_intBytes (w : ℕ) (x : ℤ) : (intBytes w x).length = w := length_leBytes w _

theorem toNat_emod_pow (w : ℕ) (x : ℤ) : ((x % 256 ^ w).toNat : ℤ) = x % 256 ^ w :=
  Int.toNat_of_nonneg (Int.emod_nonneg _ (by positivity))

theorem toNat_emod_pow_lt (w : ℕ) (x : ℤ) : (x % 256 ^ w).toNat < 256 ^ w := by
  have hlt : x % 256 ^ w < 256 ^ w := Int.emod_lt_of_pos _ (by positivity)
  rw [← toNat_emod_pow] at hlt
  exact_mod_cast hlt

theorem ofLeBytes_intBytes (w : ℕ) (x : ℤ) : (ofLeBytes (intBytes w x) : ℤ) = x % 256 ^ w := by
  rw [intBytes, ofLeBytes_leBytes, Nat.mod_eq_of_lt (toNat_emod_pow_lt w x), toNat_emod_pow]

/-- The low bytes of a field are a narrower field. -/
theorem take_intBytes {v w : ℕ} (h : v ≤ w) (x : ℤ) : (intBytes w x).take v = intBytes v x := by
  have hlow : (intBytes w x).take v = leBytes v (x % 256 ^ w).toNat := take_leBytes h _
  have hread := leBytes_ofLeBytes ((intBytes w x).take v)
  have hlen : ((intBytes w x).take v).length = v := by
    rw [hlow, length_leBytes]
  have hvalue : ofLeBytes ((intBytes w x).take v) = (x % 256 ^ v).toNat := by
    zify
    rw [hlow, ofLeBytes_leBytes, toNat_emod_pow]
    push_cast
    rw [toNat_emod_pow, Int.emod_emod_of_dvd _ (pow_dvd_pow 256 h)]
  rw [hlen, hvalue] at hread
  exact hread.symm

/-! ### Words -/

theorem toNat_ofInt (x : ℤ) : ((ofInt x).toNat : ℤ) = x % 2 ^ 64 := by
  have hlt : (x % 2 ^ 64).toNat < 2 ^ 64 := toNat_emod_pow_lt 8 x
  rw [ofInt, toNat_ofNat_of_lt' hlt]
  exact toNat_emod_pow 8 x

/-- A word stands for the integers that agree with it modulo `2 ^ 64`. -/
theorem eq_ofInt_iff {w : UInt64} {x : ℤ} : w = ofInt x ↔ (w.toNat : ℤ) = x % 2 ^ 64 := by
  rw [← toNat_ofInt, ← UInt64.toNat_inj]
  exact Int.natCast_inj.symm

theorem take_le64_ofInt {w : ℕ} (hw : w ≤ 8) (x : ℤ) : (le64 (ofInt x)).take w = intBytes w x := by
  have hfield : le64 (ofInt x) = intBytes 8 x := by
    rw [le64]
    congr 1
    zify
    rw [toNat_ofInt]
    exact (toNat_emod_pow 8 x).symm
  rw [hfield, take_intBytes hw]

/-- The bits below bit `n`, continued by bit `n - 1` if the number has a sign. -/
def extendSign (n : ℕ) (signed : Bool) (raw : UInt64) : UInt64 :=
  let mask := oneBit n - 1
  let val := raw &&& mask
  if signed && (val &&& oneBit (n - 1)) != 0 then val ||| ~~~mask else val

section

variable {n : ℕ} {raw : UInt64}

theorem toNat_mask (hn : n < 64) : (oneBit n - 1).toNat = 2 ^ n - 1 := by
  have hone : (1 : UInt64) ≤ oneBit n := by
    rw [le_iff_toNat_le, toNat_oneBit hn]
    exact Nat.one_le_two_pow
  rw [UInt64.toNat_sub_of_le _ _ hone, toNat_oneBit hn, toNat_one]

theorem toNat_and_mask (hn : n < 64) : (raw &&& (oneBit n - 1)).toNat = raw.toNat % 2 ^ n := by
  rw [UInt64.toNat_and, toNat_mask hn, Nat.and_two_pow_sub_one_eq_mod]

/-- Filling the bits from `n` on adds them. -/
theorem toNat_or_not_mask (hn : n < 64) {val : UInt64} (hval : val.toNat < 2 ^ n) :
    (val ||| ~~~(oneBit n - 1)).toNat = val.toNat + (2 ^ 64 - 2 ^ n) := by
  have hhigh : (2 ^ (64 - n) - 1) <<< n = 2 ^ 64 - 2 ^ n := by
    rw [Nat.shiftLeft_eq, Nat.sub_mul, ← pow_add, Nat.sub_add_cancel hn.le, Nat.one_mul]
  have hnot : (~~~(oneBit n - 1)).toNat = (2 ^ (64 - n) - 1) <<< n := by
    rw [toNat_not, toNat_mask hn, size]
    omega
  rw [UInt64.toNat_or, hnot, Nat.or_comm, ← Nat.shiftLeft_add_eq_or_of_lt hval, hhigh, add_comm]

/-- The highest bit of a number below `2 ^ n` says whether it is in the upper half. -/
theorem and_oneBit_pred_ne_zero (hpos : 0 < n) (hn : n < 64) {val : UInt64}
    (hval : val.toNat < 2 ^ n) : val &&& oneBit (n - 1) ≠ 0 ↔ 2 ^ n ≤ 2 * val.toNat := by
  have hsplit : 2 ^ n = 2 * 2 ^ (n - 1) := by
    rw [← Nat.pow_succ', Nat.succ_eq_add_one, Nat.sub_add_cancel hpos]
  have hquot : val.toNat / 2 ^ (n - 1) < 2 := Nat.div_lt_of_lt_mul (by omega)
  have hhalf : 1 ≤ val.toNat / 2 ^ (n - 1) ↔ 2 ^ (n - 1) ≤ val.toNat := by
    rw [Nat.le_div_iff_mul_le (by positivity), Nat.one_mul]
  rw [and_oneBit_ne_zero (by omega), bit, Nat.testBit_eq_decide_div_mod_eq, decide_eq_true_iff,
    Nat.mod_eq_of_lt hquot]
  omega

end

/-- An integer that fits, as a field and as a word, by its sign. -/
theorem FitsIn.emod {signed : Bool} {w : ℕ} {x : ℤ} (h : FitsIn signed w x) :
    (0 ≤ x ∧ x < 256 ^ w ∧ (signed = true → 2 * x < 256 ^ w)) ∨
      (signed = true ∧ x < 0 ∧ -256 ^ w ≤ 2 * x) := by
  rw [FitsIn] at h
  cases signed with
  | false => exact .inl ⟨h.1, h.2, nofun⟩
  | true =>
    rcases lt_or_ge x 0 with hneg | hnonneg
    · exact .inr ⟨rfl, hneg, h.1⟩
    · exact .inl ⟨hnonneg, by have := h.2; omega, fun _ => h.2⟩

theorem emod_of_neg {x m : ℤ} (hneg : x < 0) (hle : -m ≤ x) : x % m = x + m := by
  rw [← Int.add_emod_right, Int.emod_eq_of_lt (by omega) (by omega)]

/-- Extending the sign of a field recovers the integer, whatever stands above the field. -/
theorem extendSign_eq {size : ℕ} {signed : Bool} {raw : UInt64} {x : ℤ} (hpos : 0 < size)
    (hsize : size < 8) (hraw : (raw.toNat : ℤ) % 256 ^ size = x % 256 ^ size)
    (hx : FitsIn signed size x) : extendSign (size * 8) signed raw = ofInt x := by
  have hn : size * 8 < 64 := by omega
  have hpow : (256 : ℤ) ^ size = 2 ^ (size * 8) := by
    rw [mul_comm, pow_mul]
    rfl
  have hle : (2 : ℤ) ^ (size * 8) ≤ 2 ^ 64 := pow_le_pow_right₀ (by norm_num) hn.le
  have hcases := hx.emod
  rw [hpow] at hraw hcases
  -- the field, as a number
  have hlt : (raw &&& (oneBit (size * 8) - 1)).toNat < 2 ^ (size * 8) := by
    rw [toNat_and_mask hn]
    exact Nat.mod_lt _ (by positivity)
  have hval : ((raw &&& (oneBit (size * 8) - 1)).toNat : ℤ) = x % 2 ^ (size * 8) := by
    rw [toNat_and_mask hn, ← hraw]
    rfl
  have hsign : raw &&& (oneBit (size * 8) - 1) &&& oneBit (size * 8 - 1) ≠ 0 ↔
      2 ^ (size * 8) ≤ 2 * (x % 2 ^ (size * 8)) := by
    rw [and_oneBit_pred_ne_zero (by omega) hn hlt, ← hval]
    exact_mod_cast Iff.rfl
  rw [eq_ofInt_iff, extendSign]
  rcases hcases with ⟨hnonneg, hbound, hhalf⟩ | ⟨rfl, hneg, hbound⟩
  · rw [Int.emod_eq_of_lt hnonneg hbound] at hval hsign
    have hclear : (signed && (raw &&& (oneBit (size * 8) - 1) &&& oneBit (size * 8 - 1)) != 0) =
        false := by
      rw [Bool.and_eq_false_iff, bne_eq_false_iff_eq]
      cases signed with
      | false => exact .inl rfl
      | true =>
        refine .inr (not_not.mp (mt hsign.mp ?_))
        have := hhalf rfl
        omega
    rw [hclear, if_neg Bool.false_ne_true, hval, Int.emod_eq_of_lt hnonneg (by omega)]
  · rw [emod_of_neg hneg (by omega)] at hval hsign
    have hset : (true && (raw &&& (oneBit (size * 8) - 1) &&& oneBit (size * 8 - 1)) != 0) =
        true := by
      rw [Bool.true_and, bne_iff_ne]
      exact hsign.mpr (by omega)
    have hsub : ((2 ^ 64 - 2 ^ (size * 8) : ℕ) : ℤ) = 2 ^ 64 - 2 ^ (size * 8) := by
      rw [Nat.cast_sub (Nat.pow_le_pow_right two_pos hn.le)]
      rfl
    rw [hset, if_pos rfl, toNat_or_not_mask hn hlt]
    omega

end ClawHdf5.TwosComplement
