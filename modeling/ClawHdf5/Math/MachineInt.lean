import Mathlib.Tactic.Positivity

/-!
# Machine integers

The standard-library operations on unsigned machine integers that the modelled code uses,
with their meaning on natural numbers.
-/

namespace ClawHdf5.MachineInt

open List UInt64 Nat

variable {n k : ℕ} {a b : UInt64}

/-! ### Powers of two -/

/-- The smallest power of two that is at least `n`. -/
def nextPowerOfTwo (n : ℕ) : ℕ := if n ≤ 1 then 1 else 2 ^ (Nat.log2 (n - 1) + 1)

/-- Whether `n` has exactly one bit set. -/
def isPowerOfTwo (n : ℕ) : Bool := n = 2 ^ Nat.log2 n

theorem exists_nextPowerOfTwo (n : ℕ) : ∃ k, nextPowerOfTwo n = 2 ^ k := by
  unfold nextPowerOfTwo
  split_ifs with h
  · exact ⟨0, rfl⟩
  · exact ⟨_, rfl⟩

theorem le_nextPowerOfTwo (n : ℕ) : n ≤ nextPowerOfTwo n := by
  unfold nextPowerOfTwo
  split_ifs with h
  · exact h
  · have := lt_log2_self (n := n - 1)
    omega

theorem nextPowerOfTwo_pos (n : ℕ) : 0 < nextPowerOfTwo n := by
  obtain ⟨k, hk⟩ := exists_nextPowerOfTwo n
  rw [hk]
  positivity

theorem nextPowerOfTwo_le (h : n ≤ 2 ^ k) : nextPowerOfTwo n ≤ 2 ^ k := by
  unfold nextPowerOfTwo
  split_ifs with hn
  · exact Nat.one_le_two_pow
  · apply Nat.pow_le_pow_right two_pos
    have hlog : Nat.log2 (n - 1) < k := (log2_lt (by omega)).mpr (by omega)
    omega

@[simp] theorem nextPowerOfTwo_two_pow (k : ℕ) : nextPowerOfTwo (2 ^ k) = 2 ^ k :=
  le_antisymm (nextPowerOfTwo_le le_rfl) (le_nextPowerOfTwo _)

/-- One more than a power of two needs the next one. -/
theorem nextPowerOfTwo_two_pow_succ (k : ℕ) : nextPowerOfTwo (2 ^ k + 1) = 2 ^ (k + 1) := by
  have hone := Nat.two_pow_pos k
  apply le_antisymm
  · apply nextPowerOfTwo_le
    omega
  · obtain ⟨j, hj⟩ := exists_nextPowerOfTwo (2 ^ k + 1)
    have hlt : 2 ^ k < 2 ^ j := by
      have := le_nextPowerOfTwo (2 ^ k + 1)
      omega
    rw [hj]
    exact Nat.pow_le_pow_right two_pos ((Nat.pow_lt_pow_iff_right (by decide)).mp hlt)

theorem isPowerOfTwo_iff : isPowerOfTwo n = true ↔ ∃ k, n = 2 ^ k := by
  simp only [isPowerOfTwo, decide_eq_true_eq]
  constructor
  · exact fun h => ⟨_, h⟩
  · rintro ⟨k, rfl⟩
    rw [log2_two_pow]

/-- The number of zero bits of a `usize` below its lowest one. -/
def trailingZeros (n : ℕ) : ℕ := (range 64).findIdx fun i => n.testBit i

theorem trailingZeros_two_pow (hk : k < 64) : trailingZeros (2 ^ k) = k := by
  have hlen : k < (range 64).length := by simpa using hk
  rw [trailingZeros, findIdx_eq hlen]
  simp only [testBit_two_pow]
  exact ⟨by simp, fun j hj => by simp; omega⟩

/-! ### Sixty-four-bit words -/

/-- The largest word. -/
def maxU64 : UInt64 := 0xffffffffffffffff

/-- Addition that stops at the largest word. -/
def saturatingAdd (a b : UInt64) : UInt64 :=
  if a.toNat + b.toNat < 2 ^ 64 then a + b else maxU64

/-- Multiplication that stops at the largest word. -/
def saturatingMul (a b : UInt64) : UInt64 :=
  if a.toNat * b.toNat < 2 ^ 64 then a * b else maxU64

/-- Addition that fails on overflow. -/
def checkedAdd (a b : UInt64) : Option UInt64 :=
  if a.toNat + b.toNat < 2 ^ 64 then some (a + b) else none

/-- Multiplication that fails on overflow. -/
def checkedMul (a b : UInt64) : Option UInt64 :=
  if a.toNat * b.toNat < 2 ^ 64 then some (a * b) else none

/-- The quotient rounded up. -/
def divCeil (a b : UInt64) : UInt64 := if a % b = 0 then a / b else a / b + 1

/-- The number of zero bits above the highest one. -/
def leadingZeros (a : UInt64) : ℕ := if a = 0 then 64 else 63 - Nat.log2 a.toNat

@[simp] theorem toNat_maxU64 : maxU64.toNat = 2 ^ 64 - 1 := rfl

theorem toNat_add_of_lt (h : a.toNat + b.toNat < 2 ^ 64) : (a + b).toNat = a.toNat + b.toNat := by
  rw [UInt64.toNat_add, mod_eq_of_lt h]

theorem lt_add_one_of_lt_maxU64 (h : a < maxU64) : a < a + 1 := by
  have hlt : a.toNat < 2 ^ 64 - 1 := lt_iff_toNat_lt.mp h
  have hone : (1 : UInt64).toNat = 1 := rfl
  rw [lt_iff_toNat_lt, toNat_add_of_lt (by omega)]
  omega

theorem toNat_mul_of_lt (h : a.toNat * b.toNat < 2 ^ 64) : (a * b).toNat = a.toNat * b.toNat := by
  rw [UInt64.toNat_mul, mod_eq_of_lt h]

theorem toNat_saturatingAdd (a b : UInt64) :
    (saturatingAdd a b).toNat = min (a.toNat + b.toNat) (2 ^ 64 - 1) := by
  unfold saturatingAdd
  split_ifs with h
  · rw [toNat_add_of_lt h]
    omega
  · rw [toNat_maxU64]
    omega

theorem toNat_saturatingMul (a b : UInt64) :
    (saturatingMul a b).toNat = min (a.toNat * b.toNat) (2 ^ 64 - 1) := by
  unfold saturatingMul
  split_ifs with h
  · rw [toNat_mul_of_lt h]
    omega
  · rw [toNat_maxU64]
    omega

theorem checkedAdd_eq_some {c : UInt64} :
    checkedAdd a b = some c ↔ c.toNat = a.toNat + b.toNat := by
  unfold checkedAdd
  constructor
  · intro h
    split_ifs at h with hlt
    cases h
    exact toNat_add_of_lt hlt
  · intro h
    have hlt : a.toNat + b.toNat < 2 ^ 64 := h ▸ c.toNat_lt
    rw [if_pos hlt, Option.some.injEq]
    exact UInt64.toNat_inj.mp ((toNat_add_of_lt hlt).trans h.symm)

theorem checkedMul_eq_some {c : UInt64} :
    checkedMul a b = some c ↔ c.toNat = a.toNat * b.toNat := by
  unfold checkedMul
  split_ifs with h
  · rw [Option.some.injEq, ← UInt64.toNat_inj, toNat_mul_of_lt h, eq_comm]
  · have := c.toNat_lt
    constructor
    · simp
    · intro hc
      omega

theorem toNat_divCeil (a b : UInt64) : (divCeil a b).toNat =
      if a.toNat % b.toNat = 0 then a.toNat / b.toNat else a.toNat / b.toNat + 1 := by
  unfold divCeil
  simp only [← UInt64.toNat_inj, UInt64.toNat_mod, UInt64.toNat_zero]
  split_ifs with h
  · rw [UInt64.toNat_div]
  · rw [toNat_add_of_lt, UInt64.toNat_div, toNat_one]
    -- a remainder leaves room: the divisor is not one
    rw [UInt64.toNat_div, toNat_one]
    have ha := a.toNat_lt
    rcases lt_or_ge 1 b.toNat with hb | hb
    · have hhalf : a.toNat / b.toNat ≤ a.toNat / 2 := div_le_div_left hb (by decide)
      omega
    · rcases le_one_iff_eq_zero_or_eq_one.mp hb with hb | hb
      · simp [hb]
      · exact absurd (by rw [hb, mod_one]) h

/-- The rounded-up quotient counts the multiples of `b` below `a`. -/
theorem lt_toNat_divCeil_iff (hb : b ≠ 0) : k < (divCeil a b).toNat ↔ k * b.toNat < a.toNat := by
  have hpos : 0 < b.toNat := pos_of_ne_zero fun h => hb (UInt64.toNat_inj.mp h)
  have hdiv := div_add_mod a.toNat b.toNat
  rw [toNat_divCeil]
  split_ifs with h
  · rw [← Nat.mul_lt_mul_right hpos (b := k), mul_comm (a.toNat / b.toNat)]
    omega
  · have hmod := mod_lt a.toNat hpos
    rw [Nat.lt_succ_iff, le_div_iff_mul_le hpos]
    -- a multiple of `b` is not `a` itself
    constructor
    · intro hle
      refine lt_of_le_of_ne hle fun heq => h ?_
      rw [← heq, mul_mod_left]
    · exact le_of_lt

theorem saturatingAdd_assoc (a b c : UInt64) :
    saturatingAdd (saturatingAdd a b) c = saturatingAdd a (saturatingAdd b c) := by
  apply UInt64.toNat_inj.mp
  simp only [toNat_saturatingAdd]
  omega

theorem toNat_pos (h : a ≠ 0) : 0 < a.toNat :=
  pos_of_ne_zero fun h0 => h (UInt64.toNat_inj.mp h0)

theorem toNat_sub_one (h : a ≠ 0) : (a - 1).toNat = a.toNat - 1 := by
  have hone : (1 : UInt64) ≤ a := le_iff_toNat_le.mpr (toNat_pos h)
  rw [UInt64.toNat_sub_of_le _ _ hone, toNat_one]

/-! ### Extrema of a list -/

theorem le_foldl_max {ns : List ℕ} {m : ℕ} (h : n ∈ ns ∨ n ≤ m) : n ≤ ns.foldl max m := by
  induction ns generalizing m with
  | nil => exact h.resolve_left not_mem_nil
  | cons a ns ih =>
    apply ih
    rcases h with h | h
    · rcases mem_cons.mp h with rfl | h
      · exact .inr (le_max_right _ _)
      · exact .inl h
    · exact .inr (h.trans (le_max_left _ _))

theorem toNat_le_foldl_max {ns : List UInt64} {n : UInt64} (hn : n ∈ ns) (m : UInt64) :
    n.toNat ≤ (ns.foldl max m).toNat := by
  have hfold : ∀ (ns : List UInt64) (m : UInt64),
      (ns.foldl max m).toNat = (ns.map toNat).foldl max m.toNat := by
    intro ns
    induction ns with
    | nil => exact fun _ => rfl
    | cons a ns ih =>
      intro m
      rw [foldl_cons, ih, toNat_max, map_cons, foldl_cons]
  rw [hfold]
  exact le_foldl_max (.inl (mem_map_of_mem hn))

theorem foldl_max_mem (ns : List UInt64) (m : UInt64) :
    ns.foldl max m = m ∨ ns.foldl max m ∈ ns := by
  induction ns generalizing m with
  | nil => exact .inl rfl
  | cons a ns ih =>
    rw [foldl_cons]
    rcases ih (max m a) with h | h
    · have hmax := toNat_max m a
      rw [h, mem_cons, ← UInt64.toNat_inj, ← UInt64.toNat_inj]
      omega
    · exact .inr (mem_cons_of_mem a h)

theorem foldl_min_le_toNat {ns : List UInt64} {n m : UInt64} (h : n ∈ ns ∨ m.toNat ≤ n.toNat) :
    (ns.foldl min m).toNat ≤ n.toNat := by
  induction ns generalizing m with
  | nil => exact h.resolve_left not_mem_nil
  | cons a ns ih =>
    apply ih
    rw [toNat_min]
    rcases h with h | h
    · rcases mem_cons.mp h with rfl | h
      · exact .inr (min_le_right _ _)
      · exact .inl h
    · exact .inr ((min_le_left _ _).trans h)

/-! ### Lists of words -/

theorem getElem?_eq_getD {α : Type*} {l : List α} {a : α} {d : ℕ} (hd : d < l.length) :
    l[d]? = some (l.getD d a) := by
  rw [getD_eq_getElem?_getD, getElem?_eq_getElem hd, Option.getD_some]

/-- A list of words is chosen entry by entry. -/
theorem exists_words_iff {P : ℕ → ℕ → Prop} (hword : ∀ d < n, ∀ x, P d x → x < 2 ^ 64) :
    (∃ l : List UInt64, l.length = n ∧ ∀ d < n, P d (l.getD d 0).toNat) ↔ ∀ d < n, ∃ x, P d x := by
  constructor
  · intro h d hd
    obtain ⟨l, -, hall⟩ := h
    exact ⟨_, hall d hd⟩
  · intro h
    choose x hx using h
    refine ⟨ofFn fun i : Fin n => ofNat (x i i.2), length_ofFn, fun d hd => ?_⟩
    have hvalue : (ofNat (x d hd)).toNat = x d hd := toNat_ofNat_of_lt' (hword d hd _ (hx d hd))
    rw [getD_eq_getElem?_getD, List.getElem?_ofFn, dif_pos hd, Option.getD_some, hvalue]
    exact hx d hd

end ClawHdf5.MachineInt
