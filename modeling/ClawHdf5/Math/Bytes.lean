import Mathlib.Data.List.Basic
import Mathlib.Tactic.Ring

/-!
# Byte strings and fixed-width integers

Byte strings are lists of `UInt8`. An integer field of `w` bytes is written least
significant byte first (`leBytes`) or most significant byte first (`beBytes`), and is
read back by `ofLeBytes`.
-/

namespace ClawHdf5

open List Nat

/-- A byte string. -/
abbrev Bytes := List UInt8

namespace Bytes

/-- The `w` base-256 digits of `n`, least significant first. -/
def leBytes : ℕ → ℕ → Bytes
  | 0, _ => []
  | w + 1, n => UInt8.ofNat n :: leBytes w (n / 256)

/-- The `w` base-256 digits of `n`, most significant first. -/
def beBytes (w n : ℕ) : Bytes := (leBytes w n).reverse

/-- The number whose base-256 digits, least significant first, are `bs`. -/
def ofLeBytes : Bytes → ℕ
  | [] => 0
  | b :: bs => b.toNat + 256 * ofLeBytes bs

@[simp] theorem length_leBytes (w n : ℕ) : (leBytes w n).length = w := by
  induction w generalizing n with
  | zero => rfl
  | succ w ih => simp [leBytes, ih]

@[simp] theorem length_beBytes (w n : ℕ) : (beBytes w n).length = w := by
  simp [beBytes]

theorem getElem?_leBytes {w i : ℕ} (h : i < w) (n : ℕ) :
    (leBytes w n)[i]? = some (UInt8.ofNat (n / 256 ^ i)) := by
  induction w generalizing i n with
  | zero => cases h
  | succ w ih =>
    rw [leBytes]
    cases i with
    | zero => rw [getElem?_cons_zero, pow_zero, Nat.div_one]
    | succ i =>
      rw [getElem?_cons_succ, ih (lt_of_succ_lt_succ h), Nat.div_div_eq_div_mul, pow_succ']

theorem take_leBytes {v w : ℕ} (h : v ≤ w) (n : ℕ) : (leBytes w n).take v = leBytes v n := by
  induction v generalizing w n with
  | zero => rfl
  | succ v ih =>
    cases w with
    | zero => simp at h
    | succ w => rw [leBytes, leBytes, take_succ_cons, ih (le_of_succ_le_succ h)]

theorem ofLeBytes_leBytes (w n : ℕ) : ofLeBytes (leBytes w n) = n % 256 ^ w := by
  induction w generalizing n with
  | zero => simp [leBytes, ofLeBytes, mod_one]
  | succ w ih =>
    have hbyte : (UInt8.ofNat n).toNat = n % 256 := by simp
    rw [leBytes, ofLeBytes, ih, hbyte, pow_succ, mul_comm (256 ^ w) 256, mod_mul]

/-- A byte string is the field of the number it represents. -/
theorem leBytes_ofLeBytes (bs : Bytes) : leBytes bs.length (ofLeBytes bs) = bs := by
  induction bs with
  | nil => rfl
  | cons b bs ih =>
    have hb := b.toNat_lt
    have hlow : UInt8.ofNat (b.toNat + 256 * ofLeBytes bs) = b := by
      apply UInt8.toNat_inj.mp
      simp only [UInt8.toNat_ofNat']
      omega
    have hhigh : (b.toNat + 256 * ofLeBytes bs) / 256 = ofLeBytes bs := by omega
    rw [length_cons, ofLeBytes, leBytes, hlow, hhigh, ih]

theorem ofLeBytes_lt (bs : Bytes) : ofLeBytes bs < 256 ^ bs.length := by
  have h := ofLeBytes_leBytes bs.length (ofLeBytes bs)
  rw [leBytes_ofLeBytes] at h
  rw [h]
  exact mod_lt _ (Nat.pow_pos (by decide))

theorem leBytes_inj {w a b : ℕ} (ha : a < 256 ^ w) (hb : b < 256 ^ w)
    (h : leBytes w a = leBytes w b) : a = b := by
  have := congrArg ofLeBytes h
  rwa [ofLeBytes_leBytes, ofLeBytes_leBytes, mod_eq_of_lt ha, mod_eq_of_lt hb] at this

/-- The eight bytes of a 64-bit word, least significant first. -/
def le64 (x : UInt64) : Bytes := leBytes 8 x.toNat

/-- The four bytes of a 32-bit word, least significant first. -/
def le32 (x : UInt32) : Bytes := leBytes 4 x.toNat

@[simp] theorem length_le64 (x : UInt64) : (le64 x).length = 8 := length_leBytes 8 _

@[simp] theorem length_le32 (x : UInt32) : (le32 x).length = 4 := length_leBytes 4 _

theorem le64_injective : Function.Injective le64 := fun x y h =>
  UInt64.toNat_inj.mp (leBytes_inj x.toNat_lt y.toNat_lt h)

theorem le32_injective : Function.Injective le32 := fun x y h =>
  UInt32.toNat_inj.mp (leBytes_inj x.toNat_lt y.toNat_lt h)

/-- The 64-bit word of eight bytes, least significant first. -/
def ofLe64 (bs : Bytes) : UInt64 := UInt64.ofNat (ofLeBytes bs)

/-- The 32-bit word of four bytes, least significant first. -/
def ofLe32 (bs : Bytes) : UInt32 := UInt32.ofNat (ofLeBytes bs)

@[simp] theorem ofLe64_le64 (x : UInt64) : ofLe64 (le64 x) = x := by
  have hx : x.toNat < 256 ^ 8 := x.toNat_lt
  rw [ofLe64, le64, ofLeBytes_leBytes, mod_eq_of_lt hx, UInt64.ofNat_toNat]

@[simp] theorem ofLe32_le32 (x : UInt32) : ofLe32 (le32 x) = x := by
  have hx : x.toNat < 256 ^ 4 := x.toNat_lt
  rw [ofLe32, le32, ofLeBytes_leBytes, mod_eq_of_lt hx, UInt32.ofNat_toNat]

theorem le64_ofLe64 {bs : Bytes} (h : bs.length = 8) : le64 (ofLe64 bs) = bs := by
  have hlt : ofLeBytes bs < 2 ^ 64 := (ofLeBytes_lt bs).trans_eq (by rw [h]; rfl)
  rw [le64, ofLe64, UInt64.toNat_ofNat_of_lt' hlt, ← h, leBytes_ofLeBytes]

theorem le32_ofLe32 {bs : Bytes} (h : bs.length = 4) : le32 (ofLe32 bs) = bs := by
  have hlt : ofLeBytes bs < 2 ^ 32 := (ofLeBytes_lt bs).trans_eq (by rw [h]; rfl)
  rw [le32, ofLe32, UInt32.toNat_ofNat_of_lt' hlt, ← h, leBytes_ofLeBytes]

/-- The eight bytes of a 64-bit word, most significant first. -/
def be64 (x : UInt64) : Bytes := (le64 x).reverse

/-- The four bytes of a 32-bit word, most significant first. -/
def be32 (x : UInt32) : Bytes := (le32 x).reverse

/-- The 64-bit word of eight bytes, most significant first. -/
def ofBe64 (bs : Bytes) : UInt64 := ofLe64 bs.reverse

/-- The 32-bit word of four bytes, most significant first. -/
def ofBe32 (bs : Bytes) : UInt32 := ofLe32 bs.reverse

@[simp] theorem length_be64 (x : UInt64) : (be64 x).length = 8 := by simp [be64]

@[simp] theorem length_be32 (x : UInt32) : (be32 x).length = 4 := by simp [be32]

@[simp] theorem ofBe64_be64 (x : UInt64) : ofBe64 (be64 x) = x := by simp [ofBe64, be64]

@[simp] theorem ofBe32_be32 (x : UInt32) : ofBe32 (be32 x) = x := by simp [ofBe32, be32]

theorem be64_injective : Function.Injective be64 := fun _ _ h =>
  le64_injective (reverse_injective h)

theorem be64_ofBe64 {bs : Bytes} (h : bs.length = 8) : be64 (ofBe64 bs) = bs := by
  rw [be64, ofBe64, le64_ofLe64 (by simpa using h), reverse_reverse]

theorem be32_ofBe32 {bs : Bytes} (h : bs.length = 4) : be32 (ofBe32 bs) = bs := by
  rw [be32, ofBe32, le32_ofLe32 (by simpa using h), reverse_reverse]

/-- A byte array of fixed length. -/
abbrev Fixed (n : ℕ) := {b : Bytes // b.length = n}

/-- The `w` bytes of an array from position `i` on. -/
def Fixed.slice {n : ℕ} (b : Fixed n) (i w : ℕ) (h : i + w ≤ n) : Fixed w :=
  ⟨(b.1.drop i).take w, by
    have := b.2
    simp only [List.length_take, length_drop]
    omega⟩

theorem Fixed.slice_eq {n i w : ℕ} {b : Fixed n} {h : i + w ≤ n} (start : Bytes) {field : Bytes}
    (rest : Bytes) (hb : b.1 = start ++ (field ++ rest)) (hi : start.length = i)
    (hw : field.length = w) :
    (b.slice i w h).1 = field := by
  simp only [Fixed.slice]
  rw [hb, ← hi, drop_left, ← hw, take_left]

theorem Fixed.slice_append {n : ℕ} (b : Fixed n) (i w v : ℕ) (h : i + w + v ≤ n) :
    (b.slice i w (by omega)).1 ++ (b.slice (i + w) v h).1 = (b.slice i (w + v) (by omega)).1 := by
  simp only [Fixed.slice]
  rw [take_add, drop_drop]

theorem Fixed.slice_all {n : ℕ} (b : Fixed n) : b.slice 0 n (by omega) = b := by
  apply Subtype.ext
  exact take_of_length_le b.2.le

/-- Concatenating equally wide, injective fields is injective. -/
theorem flatMap_inj_of_length {α β : Type*} {f : α → List β} {w : ℕ} (hw : 0 < w)
    (hlen : ∀ a, (f a).length = w) (hf : Function.Injective f) {xs ys : List α}
    (h : xs.flatMap f = ys.flatMap f) : xs = ys := by
  induction xs generalizing ys with
  | nil =>
    cases ys with
    | nil => rfl
    | cons y ys =>
      have := congrArg length h
      simp only [flatMap_nil, flatMap_cons, length_nil, length_append, hlen] at this
      omega
  | cons x xs ih =>
    cases ys with
    | nil =>
      have := congrArg length h
      simp only [flatMap_nil, flatMap_cons, length_nil, length_append, hlen] at this
      omega
    | cons y ys =>
      obtain ⟨hhead, htail⟩ := append_inj h (by rw [hlen, hlen])
      rw [hf hhead, ih htail]

/-! ### Strings -/

def utf8Bytes (s : String) : Bytes := s.toByteArray.data.toList

/-- The string of a valid byte sequence. -/
def fromUtf8 (bs : Bytes) : Option String := String.fromUTF8? ⟨bs.toArray⟩

theorem fromUtf8_eq_some {bs : Bytes} {s : String} :
    fromUtf8 bs = some s ↔ bs = utf8Bytes s := by
  constructor
  · intro h
    simp only [fromUtf8, String.fromUTF8?, Option.dite_none_right_eq_some, Option.some.injEq] at h
    obtain ⟨_, rfl⟩ := h
    rfl
  · rintro rfl
    rw [fromUtf8, utf8Bytes, String.fromUTF8?, dif_pos s.isValidUTF8]
    rfl

end Bytes

end ClawHdf5
