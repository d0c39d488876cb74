import ClawHdf5.Merkle.Dataset

/-!
# The packed attribute and the signed payload

The `merkle_root` attribute is stored as 130 bytes and read by two parsers, one that unpacks
it and one that refers to the bytes in place. What is signed is another encoding of its
fields, in another order, without the integrity digest and with the version and the time of
the commit. The integrity digest is determined by signed fields, so the signature pins every
byte of the attribute.
-/

namespace ClawHdf5.Merkle

open Bytes Fallible List MerkleAttr HashAlg

variable {data : Bytes} {i : ℕ}

/-! ### Identifiers -/

/-- The algorithm of an identifier byte. -/
def HashAlg.fromId : UInt8 → Option HashAlg
  | 0 => some .sha256
  | 1 => some .blake3
  | 2 => some .k12
  | _ => none

/-- The leaf format of an identifier byte. -/
def LeafFormat.fromId : UInt8 → Option LeafFormat
  | 0 => some .content
  | 1 => some .bound
  | _ => none

theorem HashAlg.fromId_eq_some {id : UInt8} {alg : HashAlg} :
    fromId id = some alg ↔ id = alg.toId := by
  constructor
  · intro h
    unfold fromId at h
    split at h <;> cases h <;> rfl
  · rintro rfl
    cases alg <;> rfl

theorem LeafFormat.fromId_eq_some {id : UInt8} {fmt : LeafFormat} :
    LeafFormat.fromId id = some fmt ↔ id = fmt.toId := by
  constructor
  · intro h
    unfold LeafFormat.fromId at h
    split at h <;> cases h <;> rfl
  · rintro rfl
    cases fmt <;> rfl

theorem HashAlg.toId_injective : Function.Injective toId := fun _ _ h =>
  Option.some.inj ((fromId_eq_some.mpr rfl).symm.trans (fromId_eq_some.mpr h))

theorem LeafFormat.toId_injective : Function.Injective LeafFormat.toId := fun _ _ h =>
  Option.some.inj ((fromId_eq_some.mpr rfl).symm.trans (fromId_eq_some.mpr h))

/-! ### The stored form -/

def merkleAttrSize : ℕ := 130

namespace MerkleAttr

def pack (attr : MerkleAttr) : Bytes :=
  attr.root.val ++ [attr.algorithm.toId] ++ [attr.leafFormat.toId] ++ attr.integrity.val ++
    attr.companionHash.val ++ attr.gridHash.val

/-- Read a packed attribute, and check that the integrity digest binds the root, the algorithm
and the leaf format. -/
def unpack (H : Hashers) (data : Bytes) : Except MerkleError MerkleAttr := do
  reject (data.length ≠ merkleAttrSize) (.invalidAttribute .wrongSize)
  let root := readHash data 0
  let algorithm ← okOr (.invalidAttribute .unknownAlgorithm) (HashAlg.fromId (data.getD 32 0))
  let leafFormat ← okOr (.invalidAttribute .unknownLeafFormat)
    (LeafFormat.fromId (data.getD 33 0))
  let integrity := readHash data 34
  let companionHash := readHash data 66
  let gridHash := readHash data 98
  let expectedIntegrity := computeIntegrity H root algorithm leafFormat
  reject (¬ constantTimeEq integrity expectedIntegrity) (.invalidAttribute .integrityMismatch)
  .ok ⟨root, algorithm, leafFormat, integrity, companionHash, gridHash⟩

end MerkleAttr

/-- The packed attribute, read in place. -/
structure MerkleAttrRef where
  data : Fixed merkleAttrSize

namespace MerkleAttrRef

/-- Refer to a slice of the right size. -/
def fromSlice (data : Bytes) : Except MerkleError MerkleAttrRef :=
  if h : data.length = merkleAttrSize then .ok ⟨⟨data, h⟩⟩
  else .error (.invalidAttribute .wrongSize)

def rootArray (r : MerkleAttrRef) : Hash := readHash r.data.1 0

def algorithm (r : MerkleAttrRef) : Except MerkleError HashAlg :=
  okOr (.invalidAttribute .unknownAlgorithm) (HashAlg.fromId (r.data.1.getD 32 0))

def leafFormat (r : MerkleAttrRef) : Except MerkleError LeafFormat :=
  okOr (.invalidAttribute .unknownLeafFormat) (LeafFormat.fromId (r.data.1.getD 33 0))

def integrity (r : MerkleAttrRef) : Hash := readHash r.data.1 34

/-- Check the integrity digest without unpacking. -/
def verifyIntegrity (H : Hashers) (r : MerkleAttrRef) : Except MerkleError Unit := do
  let algorithm ← r.algorithm
  let leafFormat ← r.leafFormat
  let expected := MerkleAttr.computeIntegrity H r.rootArray algorithm leafFormat
  reject (¬ constantTimeEq r.integrity expected) (.invalidAttribute .integrityMismatch)

def toOwnedAttr (H : Hashers) (r : MerkleAttrRef) : Except MerkleError MerkleAttr :=
  MerkleAttr.unpack H r.data.1

/-- Refer to the bytes, check them and unpack them. -/
def readChecked (H : Hashers) (data : Bytes) : Except MerkleError MerkleAttr := do
  let r ← fromSlice data
  r.verifyIntegrity H
  r.toOwnedAttr H

end MerkleAttrRef

/-! ### The signed payload -/

/-- What is signed. -/
def canonicalPayload (root companionHash : Hash) (version timestamp : UInt64) (algId : HashAlg)
    (leafFormat : LeafFormat) (gridHash : Hash) : Bytes :=
  root.val ++ companionHash.val ++ be64 version ++ be64 timestamp ++ [algId.toId] ++
    [leafFormat.toId] ++ gridHash.val

/-- The payload over the fields of an attribute. -/
def MerkleAttr.payload (attr : MerkleAttr) (version timestamp : UInt64) : Bytes :=
  canonicalPayload attr.root attr.companionHash version timestamp attr.algorithm
    attr.leafFormat attr.gridHash

/-! ### Both encodings determine the fields -/

theorem readHash_of_eq {h : Hash} (start rest : Bytes) (hdata : data = start ++ (h.val ++ rest))
    (hi : start.length = i) : readHash data i = h := by
  have htake : (data.drop i).take hashSize = h.val := by
    rw [hdata, drop_left' hi, take_left' h.2]
  rw [readHash, dif_pos (by rw [htake, h.2])]
  exact Subtype.ext htake

theorem readHash_append_drop (h : i + hashSize ≤ data.length) :
    (readHash data i).val ++ data.drop (i + hashSize) = data.drop i := by
  have hlen : ((data.drop i).take hashSize).length = hashSize := by
    rw [length_take, length_drop]
    omega
  rw [readHash, dif_pos hlen, ← drop_drop, take_append_drop]

theorem getD_cons_drop (h : i < data.length) :
    data.getD i 0 :: data.drop (i + 1) = data.drop i := by
  rw [getD_eq_getElem _ _ h, drop_eq_getElem_cons h]

namespace MerkleAttr

theorem length_pack (attr : MerkleAttr) : attr.pack.length = merkleAttrSize := by
  simp only [pack, length_append, attr.root.2, attr.integrity.2, attr.companionHash.2,
    attr.gridHash.2]
  rfl

theorem pack_fields (attr : MerkleAttr) :
    readHash attr.pack 0 = attr.root ∧ attr.pack.getD 32 0 = attr.algorithm.toId ∧
      attr.pack.getD 33 0 = attr.leafFormat.toId ∧ readHash attr.pack 34 = attr.integrity ∧
      readHash attr.pack 66 = attr.companionHash ∧ readHash attr.pack 98 = attr.gridHash := by
  obtain ⟨⟨root, hroot⟩, algorithm, leafFormat, integrity, companion, grid⟩ := attr
  have hroot' : root.length = 32 := hroot
  refine ⟨?_, ?_, ?_, ?_, ?_, ?_⟩
  · exact readHash_of_eq [] _ (by simp [pack]; rfl) rfl
  · simp [pack, hroot']
  · simp [pack, getElem?_append_right, hroot']
  · exact readHash_of_eq (root ++ [algorithm.toId, leafFormat.toId]) _ (by simp [pack]; rfl)
      (by simp [hroot'])
  · refine readHash_of_eq (root ++ [algorithm.toId, leafFormat.toId] ++ integrity.val) _
      (by simp [pack]; rfl) ?_
    simp [hroot', integrity.2, hashSize]
  · refine readHash_of_eq
      (root ++ [algorithm.toId, leafFormat.toId] ++ integrity.val ++ companion.val) []
      (by simp [pack]) ?_
    simp [hroot', integrity.2, companion.2, hashSize]

/-- Data of the right size is the concatenation of its fields. -/
theorem eq_fields (h : data.length = merkleAttrSize) :
    data = (readHash data 0).val ++ [data.getD 32 0] ++ [data.getD 33 0] ++
      (readHash data 34).val ++ (readHash data 66).val ++ (readHash data 98).val := by
  have hsize : data.length = 130 := h
  have hdigest (i : ℕ) (hi : i + 32 ≤ 130) :
      (readHash data i).val ++ data.drop (i + 32) = data.drop i :=
    readHash_append_drop (hsize ▸ hi)
  have hbyte (i : ℕ) (hi : i < 130) : data.getD i 0 :: data.drop (i + 1) = data.drop i :=
    getD_cons_drop (hsize ▸ hi)
  have hend : data.drop 130 = [] := drop_eq_nil_of_le hsize.le
  calc data = data.drop 0 := drop_zero.symm
    _ = _ := by
      rw [← hdigest 0 (by decide), ← hbyte 32 (by decide), ← hbyte 33 (by decide),
        ← hdigest 34 (by decide), ← hdigest 66 (by decide), ← hdigest 98 (by decide), hend]
      simp

/-- `unpack` accepts exactly the packed attributes that carry their own integrity digest. -/
theorem unpack_eq_ok {H : Hashers} {attr : MerkleAttr} : unpack H data = .ok attr ↔
      attr.integrity = computeIntegrity H attr.root attr.algorithm attr.leafFormat ∧
        data = attr.pack := by
  simp only [unpack, bind_ok_iff, reject_eq_ok, exists_const, not_not, okOr_eq_ok,
    fromId_eq_some, LeafFormat.fromId_eq_some, constantTimeEq_iff, Except.ok.injEq]
  constructor
  · rintro ⟨hlen, algorithm, halg, leafFormat, hfmt, hintegrity, rfl⟩
    refine ⟨hintegrity, ?_⟩
    rw [pack, ← halg, ← hfmt]
    exact eq_fields hlen
  · rintro ⟨hintegrity, rfl⟩
    obtain ⟨hroot, halg, hfmt, hread, hcompanion, hgrid⟩ := attr.pack_fields
    refine ⟨attr.length_pack, attr.algorithm, halg, attr.leafFormat, hfmt, ?_, ?_⟩
    · rw [hread, hroot, hintegrity]
    · rw [hroot, hread, hcompanion, hgrid]

end MerkleAttr

/-- A payload determines what it is taken of. -/
theorem canonicalPayload_inj {root root' companion companion' grid grid' : Hash}
    {v v' t t' : UInt64} {alg alg' : HashAlg} {fmt fmt' : LeafFormat}
    (h : canonicalPayload root companion v t alg fmt grid =
      canonicalPayload root' companion' v' t' alg' fmt' grid') :
    root = root' ∧ companion = companion' ∧ v = v' ∧ t = t' ∧ alg = alg' ∧ fmt = fmt' ∧
      grid = grid' := by
  have hhash (a b : Hash) : a.val.length = b.val.length := by rw [a.2, b.2]
  simp only [canonicalPayload, append_assoc] at h
  obtain ⟨hroot, h⟩ := append_inj h (hhash _ _)
  obtain ⟨hcompanion, h⟩ := append_inj h (hhash _ _)
  obtain ⟨hversion, h⟩ := append_inj h (by simp)
  obtain ⟨htime, h⟩ := append_inj h (by simp)
  obtain ⟨halg, h⟩ := cons.inj h
  obtain ⟨hfmt, hgrid⟩ := cons.inj h
  exact ⟨Subtype.ext hroot, Subtype.ext hcompanion, be64_injective hversion,
    be64_injective htime, toId_injective halg, LeafFormat.toId_injective hfmt,
    Subtype.ext hgrid⟩

/-- Reading in place makes the same checks as unpacking, in the same order. -/
theorem MerkleAttrRef.readChecked_eq_unpack (H : Hashers) (data : Bytes) :
    readChecked H data = unpack H data := by
  by_cases hsize : data.length = merkleAttrSize
  · have hslice : fromSlice data = .ok ⟨⟨data, hsize⟩⟩ := dif_pos hsize
    rw [readChecked, hslice]
    simp only [verifyIntegrity, toOwnedAttr, unpack, algorithm, leafFormat, integrity,
      rootArray, reject, hsize, ok_bind]
    cases fromId (data.getD 32 0) with
    | none => rfl
    | some alg =>
      cases LeafFormat.fromId (data.getD 33 0) with
      | none => rfl
      | some fmt =>
        simp only [okOr, ok_bind]
        by_cases hok : constantTimeEq (readHash data 34)
            (computeIntegrity H (readHash data 0) alg fmt) = true
        · simp [hok]
        · simp only [hok]
          rfl
  · rw [readChecked, fromSlice, dif_neg hsize, unpack, reject, if_pos hsize]
    rfl

/-- **The signature pins the attribute.** Of accepted attributes with equal payloads, the
packed bytes, the versions and the times are equal. An accepted attribute packs to the bytes
it was read from, and both readers accept the same bytes. -/
theorem payload_pins_attr (H : Hashers) :
    (∀ b₁ b₂ a₁ a₂ v₁ v₂ t₁ t₂, MerkleAttr.unpack H b₁ = .ok a₁ →
      MerkleAttr.unpack H b₂ = .ok a₂ → a₁.payload v₁ t₁ = a₂.payload v₂ t₂ →
      b₁ = b₂ ∧ v₁ = v₂ ∧ t₁ = t₂) ∧
    (∀ b a, MerkleAttr.unpack H b = .ok a → a.pack = b) ∧
    ∀ b, MerkleAttrRef.readChecked H b = MerkleAttr.unpack H b := by
  refine ⟨fun b₁ b₂ a₁ a₂ v₁ v₂ t₁ t₂ h₁ h₂ h => ?_, fun b a h => ?_,
    MerkleAttrRef.readChecked_eq_unpack H⟩
  · obtain ⟨hintegrity₁, rfl⟩ := unpack_eq_ok.mp h₁
    obtain ⟨hintegrity₂, rfl⟩ := unpack_eq_ok.mp h₂
    obtain ⟨hroot, hcompanion, hv, ht, halg, hfmt, hgrid⟩ := canonicalPayload_inj h
    -- the digest that is not signed is computed from fields that are
    have hintegrity : a₁.integrity = a₂.integrity := by
      rw [hintegrity₁, hintegrity₂, hroot, halg, hfmt]
    refine ⟨?_, hv, ht⟩
    rw [pack, pack, hroot, halg, hfmt, hintegrity, hcompanion, hgrid]
  · exact (unpack_eq_ok.mp h).2.symm

end ClawHdf5.Merkle
