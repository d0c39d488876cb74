import ClawHdf5.Math.Bytes
import ClawHdf5.Math.Fallible

/-!
# Readers

A reader consumes a byte string from the front and returns a value and what is left, or an
error. Each reader here has one rule that says which inputs it accepts, written with the bytes
the value is encoded by. A reader assembled from them inherits such a rule by rewriting, so
that both directions of a round trip come from one equivalence.
-/

namespace ClawHdf5

open Bytes Fallible List

variable {n : ℕ} {bs : Bytes}

/-- A reader over byte strings. -/
abbrev Reader (ε α : Type) := StateT Bytes (Except ε) α

namespace Reader

variable {ε α β : Type} {data rest : Bytes}
variable {e : ε} {n : ℕ} {bs : Bytes}

@[simp] theorem bind_eq_ok {first : Reader ε α} {next : α → Reader ε β} {b : β} :
    (first >>= next) data = .ok (b, rest) ↔
      ∃ a mid, first data = .ok (a, mid) ∧ next a mid = .ok (b, rest) := by
  refine (@bind_ok_iff _ _ _ (first data) (fun p => next p.1 p.2) (b, rest)).trans ?_
  simp only [Prod.exists]

@[simp] theorem pure_eq_ok {a b : α} :
    (pure a : Reader ε α) data = .ok (b, rest) ↔ a = b ∧ data = rest := by
  show Except.ok (a, data) = Except.ok (b, rest) ↔ _
  rw [Except.ok.injEq, Prod.mk.injEq]

theorem bind_of_ok {first : Reader ε α} {next : α → Reader ε β} {a : α} {mid : Bytes}
    {r : Except ε (β × Bytes)} (h : first data = .ok (a, mid)) (hnext : next a mid = r) :
    (first >>= next) data = r := by
  change (first data >>= fun p => next p.1 p.2) = r
  rw [h]
  exact hnext

theorem bind_of_error {first : Reader ε α} {next : α → Reader ε β} (h : first data = .error e) :
    (first >>= next) data = .error e := by
  change (first data >>= fun p => next p.1 p.2) = .error e
  rw [h]
  rfl

/-- A step that reads nothing. -/
def orFail (x : Except ε α) : Reader ε α := fun data => x.map fun a => (a, data)

@[simp] theorem orFail_eq_ok {x : Except ε α} {a : α} :
    orFail x data = .ok (a, rest) ↔ x = .ok a ∧ data = rest := by
  cases x <;> simp [orFail, Except.map]

/-- The next `n` bytes. -/
def take (e : ε) (n : ℕ) : Reader ε Bytes := fun data =>
  if data.length < n then .error e else .ok (data.take n, data.drop n)

@[simp] theorem take_eq_ok :
    take e n data = .ok (bs, rest) ↔ bs.length = n ∧ data = bs ++ rest := by
  unfold take
  split_ifs with h
  · simp only [false_iff, not_and]
    rintro rfl rfl
    simp at h
  · simp only [Except.ok.injEq, Prod.mk.injEq]
    constructor
    · rintro ⟨rfl, rfl⟩
      exact ⟨length_take_of_le (not_lt.mp h), (take_append_drop n data).symm⟩
    · rintro ⟨rfl, rfl⟩
      exact ⟨take_left, drop_left⟩

/-- A 64-bit word, most significant byte first. -/
def readBe64 (e : ε) : Reader ε UInt64 := do
  let bs ← take e 8
  pure (ofBe64 bs)

@[simp] theorem readBe64_eq_ok {x : UInt64} :
    readBe64 e data = .ok (x, rest) ↔ data = be64 x ++ rest := by
  simp only [readBe64, bind_eq_ok, take_eq_ok, pure_eq_ok]
  constructor
  · rintro ⟨bs, _, ⟨hlen, rfl⟩, rfl, rfl⟩
    rw [be64_ofBe64 hlen]
  · rintro rfl
    exact ⟨be64 x, rest, ⟨length_be64 x, rfl⟩, ofBe64_be64 x, rfl⟩

/-- A 32-bit word, most significant byte first. -/
def readBe32 (e : ε) : Reader ε UInt32 := do
  let bs ← take e 4
  pure (ofBe32 bs)

@[simp] theorem readBe32_eq_ok {x : UInt32} :
    readBe32 e data = .ok (x, rest) ↔ data = be32 x ++ rest := by
  simp only [readBe32, bind_eq_ok, take_eq_ok, pure_eq_ok]
  constructor
  · rintro ⟨bs, _, ⟨hlen, rfl⟩, rfl, rfl⟩
    rw [be32_ofBe32 hlen]
  · rintro rfl
    exact ⟨be32 x, rest, ⟨length_be32 x, rfl⟩, ofBe32_be32 x, rfl⟩

/-- A 64-bit word, least significant byte first. -/
def readLe64 (e : ε) : Reader ε UInt64 := do
  let bs ← take e 8
  pure (ofLe64 bs)

/-- A 32-bit word, least significant byte first. -/
def readLe32 (e : ε) : Reader ε UInt32 := do
  let bs ← take e 4
  pure (ofLe32 bs)

/-- An array of `n` bytes. -/
def readFixed (e : ε) (n : ℕ) : Reader ε (Fixed n) := fun data =>
  if h : (data.take n).length = n then .ok (⟨data.take n, h⟩, data.drop n) else .error e

@[simp] theorem readFixed_eq_ok {x : Fixed n} :
    readFixed e n data = .ok (x, rest) ↔ data = x.1 ++ rest := by
  unfold readFixed
  split_ifs with h
  · simp only [Except.ok.injEq, Prod.mk.injEq, Subtype.ext_iff]
    constructor
    · rintro ⟨hx, rfl⟩
      rw [← hx, take_append_drop]
    · rintro rfl
      exact ⟨take_left' x.2, drop_left' x.2⟩
  · simp only [false_iff]
    rintro rfl
    exact h (by rw [take_left' x.2, x.2])

/-- A byte string behind its length, a 32-bit word. -/
def readVarBytes (e : ε) : Reader ε Bytes := do
  let length ← readBe32 e
  take e length.toNat

/-- The bytes of a string behind its length. -/
def varBytes (bs : Bytes) : Bytes := be32 (UInt32.ofNat bs.length) ++ bs

@[simp] theorem readVarBytes_eq_ok :
    readVarBytes e data = .ok (bs, rest) ↔ bs.length < 2 ^ 32 ∧ data = varBytes bs ++ rest := by
  simp only [readVarBytes, bind_eq_ok, readBe32_eq_ok, take_eq_ok, varBytes, append_assoc]
  constructor
  · rintro ⟨n, _, rfl, hlen, rfl⟩
    refine ⟨hlen ▸ n.toNat_lt, ?_⟩
    rw [hlen, UInt32.ofNat_toNat]
  · rintro ⟨hlt, rfl⟩
    exact ⟨_, _, rfl, (UInt32.toNat_ofNat_of_lt' hlt).symm, rfl⟩

/-! ### Encodings and their prefixes -/

/-- The reader recognises `enc` as the encoding of `a`: it returns `a` and what follows, and
fails with `e` on input that stops inside the encoding. -/
structure Frames (e : ε) (reader : Reader ε α) (enc : Bytes) (a : α) : Prop where
  complete (rest : Bytes) : reader (enc ++ rest) = .ok (a, rest)
  cut {p : Bytes} : p <+: enc → p ≠ enc → reader p = .error e

theorem frames_pure (e : ε) (a : α) : Frames e (pure a) [] a where
  complete _ := rfl
  cut hp hne := absurd (prefix_nil.mp hp) hne

theorem frames_take (h : bs.length = n) : Frames e (take e n) bs bs where
  complete rest := take_eq_ok.mpr ⟨h, rfl⟩
  cut {p} hp hne := by
    have hlt : p.length < n := by
      have hle := hp.length_le
      have hlen : p.length ≠ bs.length := fun heq => hne (hp.eq_of_length heq)
      omega
    rw [take, if_pos hlt]

/-- Encodings are recognised one behind the other. -/
theorem Frames.bind {first : Reader ε α} {next : α → Reader ε β} {enc₁ enc₂ : Bytes} {a : α} {b : β}
    (h₁ : Frames e first enc₁ a) (h₂ : Frames e (next a) enc₂ b) :
    Frames e (first >>= next) (enc₁ ++ enc₂) b where
  complete rest := by
    rw [append_assoc, bind_eq_ok]
    exact ⟨a, _, h₁.complete _, h₂.complete _⟩
  cut {p} hp hne := by
    -- the input stops inside the second encoding or inside the first
    by_cases hfirst : enc₁ <+: p
    · obtain ⟨q, rfl⟩ := hfirst
      have hq : q <+: enc₂ := (prefix_append_right_inj enc₁).mp hp
      have hqne : q ≠ enc₂ := fun heq => hne (by rw [heq])
      exact bind_of_ok (h₁.complete q) (h₂.cut hq hqne)
    · have hpre : p <+: enc₁ :=
        (List.prefix_or_prefix_of_prefix hp (prefix_append enc₁ enc₂)).resolve_right hfirst
      have hpne : p ≠ enc₁ := fun heq => hfirst (heq ▸ prefix_rfl)
      exact bind_of_error (h₁.cut hpre hpne)

theorem Frames.map {reader : Reader ε α} {enc : Bytes} {a : α} (f : α → β)
    (h : Frames e reader enc a) : Frames e (reader >>= fun x => pure (f x)) enc (f a) := by
  have hbind := @Frames.bind _ _ _ e reader (fun x => pure (f x)) enc [] a (f a) h
    (frames_pure e (f a))
  rwa [append_nil] at hbind

theorem frames_readLe64 (e : ε) (x : UInt64) : Frames e (readLe64 e) (le64 x) x := by
  have h := (frames_take (length_le64 x) : Frames e _ _ _).map ofLe64
  rwa [ofLe64_le64] at h

theorem frames_readLe32 (e : ε) (x : UInt32) : Frames e (readLe32 e) (le32 x) x := by
  have h := (frames_take (length_le32 x) : Frames e _ _ _).map ofLe32
  rwa [ofLe32_le32] at h

end Reader

end ClawHdf5
