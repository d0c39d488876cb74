import ClawHdf5.Math.Bytes
import ClawHdf5.Math.Fallible
import ClawHdf5.Math.Region
import ClawHdf5.Math.WordBits

/-!
# Bit streams

The bits of a byte string, each byte's most significant bit first. A code of a given width is read
by shifting its bits into a word, and a reader that stands where the bits of a number begin reads
that number.
-/

namespace ClawHdf5.BitStream

open WordBits Fallible List

/-! ### Bits of numbers -/

/-- The `n` low bits of a number, most significant first. -/
def msbBits : (n v : ℕ) → List Bool
  | 0, _ => []
  | n + 1, v => v.testBit n :: msbBits n v

@[simp] theorem length_msbBits (n v : ℕ) : (msbBits n v).length = n := by
  induction n with
  | zero => rfl
  | succ n ih => rw [msbBits, length_cons, ih]

theorem getElem?_msbBits {n i : ℕ} (h : i < n) (v : ℕ) :
    (msbBits n v)[i]? = some (v.testBit (n - 1 - i)) := by
  induction n generalizing i with
  | zero => cases h
  | succ n ih =>
    cases i with
    | zero => rfl
    | succ i =>
      rw [msbBits, getElem?_cons_succ, ih (Nat.lt_of_succ_lt_succ h)]
      congr 2
      omega

/-- Bit `j` of the number stands `j` places before the end. -/
theorem getElem?_reverse_msbBits {n j : ℕ} (h : j < n) (v : ℕ) :
    (msbBits n v).reverse[j]? = some (v.testBit j) := by
  have hplace : n - 1 - (n - 1 - j) = j := by omega
  rw [getElem?_reverse (by rwa [length_msbBits]), length_msbBits,
    getElem?_msbBits (by omega), hplace]

/-- A number of at most 64 bits is what its bits make up when they are shifted in. -/
theorem toNat_shiftIn_msbBits {n v : ℕ} (hn : n ≤ 64) (hv : v < 2 ^ n) :
    (shiftIn (msbBits n v)).toNat = v := by
  refine Nat.eq_of_testBit_eq fun j => ?_
  have hlen : (msbBits n v).length ≤ 64 := by rwa [length_msbBits]
  have hbit := bit_shiftIn hlen j
  rw [bit] at hbit
  rw [Bool.eq_iff_iff, hbit]
  by_cases hj : j < n
  · rw [getElem?_reverse_msbBits hj, Option.some.injEq]
  · -- behind the code there are no bits, neither in the word nor in the number
    have hle : n ≤ j := not_lt.mp hj
    rw [getElem?_eq_none (by simpa using hle),
      Nat.testBit_lt_two_pow (hv.trans_le (Nat.pow_le_pow_right two_pos hle))]
    simp

/-! ### Bits of bytes -/

/-- The bits of a byte string, the most significant of each byte first. -/
def bitsOf (data : Bytes) : List Bool := data.flatMap fun b => msbBits 8 b.toNat

@[simp] theorem length_bitsOf (data : Bytes) : (bitsOf data).length = data.length * 8 :=
  Overwrite.length_slots (fun _ => length_msbBits 8 _) data

theorem getElem?_bitsOf (data : Bytes) (p : ℕ) :
    (bitsOf data)[p]? = data[p / 8]?.map fun b => b.toNat.testBit (7 - p % 8) := by
  induction data generalizing p with
  | nil => simp
  | cons b data ih =>
    rw [bitsOf, flatMap_cons]
    by_cases hp : p < 8
    · have hbyte : p / 8 = 0 := Nat.div_eq_of_lt hp
      rw [getElem?_append_left (by rwa [length_msbBits]), getElem?_msbBits hp, hbyte,
        Nat.mod_eq_of_lt hp]
      rfl
    · have hbyte : p / 8 = (p - 8) / 8 + 1 := by omega
      have hbit : p % 8 = (p - 8) % 8 := by omega
      rw [getElem?_append_right (by rw [length_msbBits]; omega), hbyte, hbit]
      exact ih (p - 8)

theorem testBit_leBytes {w n i : ℕ} {b : UInt8} (hb : (Bytes.leBytes w n)[i]? = some b) {j : ℕ}
    (hj : j < 8) : b.toNat.testBit j = n.testBit (8 * i + j) := by
  have hi : i < w := by
    have := lt_of_getElem? hb
    rwa [Bytes.length_leBytes] at this
  have hpow : 256 ^ i = 2 ^ (8 * i) := by rw [Nat.pow_mul]
  rw [Bytes.getElem?_leBytes hi, Option.some.injEq] at hb
  rw [← hb, UInt8.toNat_ofNat', Nat.testBit_mod_two_pow, decide_eq_true hj, Bool.true_and, hpow,
    Nat.testBit_div_two_pow, add_comm]

theorem lt_of_testBit {n v j : ℕ} (hv : v < 2 ^ n) (hj : v.testBit j = true) : j < n := by
  by_contra hge
  have hpow : 2 ^ n ≤ 2 ^ j := Nat.pow_le_pow_right two_pos (not_lt.mp hge)
  rw [Nat.testBit_lt_two_pow (hv.trans_le hpow)] at hj
  exact Bool.false_ne_true hj

/-! ### Reading -/

/-- Bit `pos % 8` of a byte, counted from the most significant, as a word. -/
def bitAt (byte : UInt8) (pos : ℕ) : UInt64 :=
  ((byte >>> UInt8.ofNat (7 - pos % 8)) &&& 1).toUInt64

theorem bitAt_eq (byte : UInt8) (pos : ℕ) :
    bitAt byte pos = if byte.toNat.testBit (7 - pos % 8) then 1 else 0 := by
  have hk : 7 - pos % 8 < 8 := by omega
  rw [bitAt]
  generalize 7 - pos % 8 = k at hk
  have hsize : k < UInt8.size := hk.trans (by decide)
  have hbit : ((byte >>> UInt8.ofNat k) &&& 1).toNat = byte.toNat / 2 ^ k % 2 := by
    rw [UInt8.toNat_and, UInt8.toNat_shiftRight, UInt8.toNat_ofNat_of_lt' hsize,
      Nat.mod_eq_of_lt hk, Nat.shiftRight_eq_div_pow, UInt8.toNat_one, Nat.and_one_is_mod]
  apply UInt64.toNat_inj.mp
  rw [UInt8.toNat_toUInt64, hbit, Nat.testBit_eq_decide_div_mod_eq]
  rcases Nat.mod_two_eq_zero_or_one (byte.toNat / 2 ^ k) with h | h <;> simp [h]

/-- Shift `n` bits of a stream into a word, from bit `pos` on. The word and the position behind
the bits are returned; a stream that is too short stops the reader with `short`. -/
def readBits {ε : Type} (short : ε) (data : Bytes) :
    (n pos : ℕ) → (value : UInt64) → Except ε (UInt64 × ℕ)
  | 0, pos, value => .ok (value, pos)
  | n + 1, pos, value => do
    let byte ← okOr short data[pos / 8]?
    readBits short data n (pos + 1) ((value <<< 1) ||| bitAt byte pos)

section

variable {ε : Type} {short : ε} {data : Bytes} {n pos : ℕ}

/-- The bits that stand at the reader's position are shifted in. -/
theorem readBits_bits {bits : List Bool} (h : StandsAt (bitsOf data) pos bits) (value : UInt64) :
    readBits short data bits.length pos value =
      .ok (bits.foldl (fun w b => (w <<< 1) ||| (if b then 1 else 0)) value,
        pos + bits.length) := by
  induction bits generalizing pos value with
  | nil => rfl
  | cons b bits ih =>
    rw [← singleton_append, standsAt_append, length_singleton] at h
    obtain ⟨hb, hbits⟩ := h
    -- the first bit is found in its byte
    have hget : (bitsOf data)[pos]? = some b := by
      have h0 := hb.getElem?_add (i := 0) (by simp)
      simpa using h0
    rw [getElem?_bitsOf, Option.map_eq_some_iff] at hget
    obtain ⟨byte, hbyte, rfl⟩ := hget
    rw [length_cons, readBits, hbyte, okOr, ok_bind, bitAt_eq, ih hbits, foldl_cons,
      add_assoc, add_comm 1]

theorem readBits_of_standsAt {v : ℕ} (hn : n ≤ 64) (hv : v < 2 ^ n)
    (h : StandsAt (bitsOf data) pos (msbBits n v)) :
    readBits short data n pos 0 = .ok (UInt64.ofNat v, pos + n) := by
  have hread : readBits short data (msbBits n v).length pos 0 = _ := readBits_bits h 0
  have hword : shiftIn (msbBits n v) = UInt64.ofNat v :=
    UInt64.ofNat_toNat.symm.trans (congrArg UInt64.ofNat (toNat_shiftIn_msbBits hn hv))
  rwa [length_msbBits, ← shiftIn, hword] at hread

/-- A reader that stops, stops because the stream is too short. -/
theorem readBits_eq_error {value : UInt64} {e : ε}
    (h : readBits short data n pos value = .error e) : e = short ∧ data.length * 8 < pos + n := by
  induction n generalizing pos value with
  | zero => cases h
  | succ n ih =>
    rw [readBits] at h
    cases hbyte : data[pos / 8]? with
    | none =>
      rw [hbyte] at h
      have hle := getElem?_eq_none_iff.mp hbyte
      exact ⟨(Except.error.inj h).symm, by omega⟩
    | some byte =>
      rw [hbyte] at h
      have hrest := ih h
      exact ⟨hrest.1, by omega⟩

end

end ClawHdf5.BitStream
