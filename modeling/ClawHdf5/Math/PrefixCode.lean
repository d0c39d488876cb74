import ClawHdf5.Math.Bytes

/-!
# Self-delimiting encodings

An encoding is self-delimiting if what follows it can be told apart from it. Fields of a fixed width
and fields behind their length are. A record of such fields is determined by the bytes of its
fields one behind the other.
-/

namespace ClawHdf5.PrefixCode

open Bytes List

variable {α β : Type*}
variable {enc : α → Bytes} {P : α → Prop}

/-- On values with the property `P`, the encoding and what follows it determine both. -/
def SelfDelimiting (P : α → Prop) (enc : α → Bytes) : Prop :=
  ∀ ⦃a b : α⦄, P a → P b → ∀ ⦃r r' : Bytes⦄, enc a ++ r = enc b ++ r' → a = b ∧ r = r'

theorem selfDelimiting_of_length {n : ℕ} (hlen : ∀ a, (enc a).length = n)
    (hinj : Function.Injective enc) : SelfDelimiting (fun _ => True) enc := by
  intro a b _ _ r r' h
  obtain ⟨henc, hrest⟩ := append_inj h (by rw [hlen, hlen])
  exact ⟨hinj henc, hrest⟩

theorem SelfDelimiting.comp (h : SelfDelimiting P enc) {f : β → α} (hf : Function.Injective f) :
    SelfDelimiting (fun b => P (f b)) (enc ∘ f) := by
  intro a b ha hb r r' heq
  obtain ⟨hab, hrest⟩ := h ha hb heq
  exact ⟨hf hab, hrest⟩

/-- The items of a list behind their number, a 64-bit word. -/
def counted (item : α → Bytes) (xs : List α) : Bytes :=
  le64 (UInt64.ofNat xs.length) ++ xs.flatMap item

/-- A list of fixed-width items is self-delimiting behind its length. -/
theorem selfDelimiting_counted {item : α → Bytes} {w : ℕ} (hw : 0 < w)
    (hlength : ∀ x, (item x).length = w) (hinj : Function.Injective item) :
    SelfDelimiting (fun xs : List α => xs.length < 2 ^ 64) (counted item) := by
  intro xs ys hxs hys r r' h
  unfold counted at h
  rw [append_assoc, append_assoc] at h
  obtain ⟨hcount, hrest⟩ := append_inj h (by rw [length_le64, length_le64])
  -- the lengths agree, and so the items take the same number of bytes
  have hlen : xs.length = ys.length := by
    have hwords := congrArg UInt64.toNat (le64_injective hcount)
    rwa [UInt64.toNat_ofNat_of_lt' hxs, UInt64.toNat_ofNat_of_lt' hys] at hwords
  have hbytes (zs : List α) : (zs.flatMap item).length = zs.length * w := by
    simp [hlength]
  obtain ⟨hitems, hrest⟩ := append_inj hrest (by rw [hbytes, hbytes, hlen])
  exact ⟨flatMap_inj_of_length hw hlength hinj hitems, hrest⟩

theorem SelfDelimiting.eq (h : SelfDelimiting P enc) {a b : α} (ha : P a) (hb : P b)
    (heq : enc a = enc b) : a = b :=
  (h ha hb (congrArg (· ++ []) heq)).1

/-! ### Tagged sections -/

/-- The strings with a given first byte. -/
def withTag (t : UInt8) (xs : List Bytes) : List Bytes := xs.filter fun x => x.head? == some t

theorem withTag_append (t : UInt8) (xs ys : List Bytes) :
    withTag t (xs ++ ys) = withTag t xs ++ withTag t ys := filter_append ..

theorem withTag_map {f : α → Bytes} {t : UInt8} (hf : ∀ x, (f x).head? = some t) (t' : UInt8)
    (xs : List α) : withTag t' (xs.map f) = if t = t' then xs.map f else [] := by
  split
  case isTrue h =>
    subst h
    refine filter_eq_self.mpr fun y hy => ?_
    obtain ⟨x, _, rfl⟩ := mem_map.mp hy
    rw [hf, beq_self_eq_true]
  case isFalse h =>
    refine filter_eq_nil_iff.mpr fun y hy => ?_
    obtain ⟨x, _, rfl⟩ := mem_map.mp hy
    rw [hf, beq_iff_eq, Option.some.injEq]
    exact h

/-- Records whose encodings agree one by one are the same. -/
theorem map_inj_on {f : α → β} (hf : ∀ a b, P a → P b → f a = f b → a = b) {xs ys : List α}
    (hxs : ∀ x ∈ xs, P x) (hys : ∀ y ∈ ys, P y) (h : xs.map f = ys.map f) : xs = ys := by
  induction xs generalizing ys with
  | nil => exact (map_eq_nil_iff.mp h.symm).symm
  | cons x xs ih =>
    cases ys with
    | nil => exact absurd h (cons_ne_nil _ _)
    | cons y ys =>
      obtain ⟨hhead, htail⟩ := cons.inj h
      rw [hf x y (hxs x mem_cons_self) (hys y mem_cons_self) hhead,
        ih (fun z hz => hxs z (mem_cons_of_mem x hz)) (fun z hz => hys z (mem_cons_of_mem y hz))
          htail]

end ClawHdf5.PrefixCode
