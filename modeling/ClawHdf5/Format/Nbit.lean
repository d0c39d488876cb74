import ClawHdf5.Format.ScaleOffset
import ClawHdf5.Math.PanicFree

/-!
# The N-Bit filter

N-Bit packs the significant bits of every field of an element, one field after another, the most
significant bit of each first. The client data describe an element as a tree of fields, arrays and
compounds, and the decoder walks the tree once for each element, putting the bits of each field
back in their places in an element of zeros.
-/

namespace ClawHdf5.Format

open Bytes Fallible BitStream Overwrite List

/-! ### The tree -/

/-- How an element is packed. -/
inductive NbitNode
  /-- `precision` significant bits from bit `bitOffset` on, in a field of `size` bytes -/
  | atomic (size : ℕ) (bigEndian : Bool) (precision bitOffset : ℕ)
  /-- members, each at a byte offset -/
  | compound (size : ℕ) (members : List (ℕ × NbitNode))
  /-- `count` copies of `base`, `baseSize` bytes apart -/
  | array (base : NbitNode) (count baseSize : ℕ)

namespace NbitNode

/-- Induction on trees, with a hypothesis for each member of a compound. -/
@[induction_eliminator]
theorem treeInduction {motive : NbitNode → Prop} (atomic : ∀ size bigEndian precision bitOffset,
      motive (.atomic size bigEndian precision bitOffset))
    (compound : ∀ size members, (∀ m ∈ members, motive m.2) → motive (.compound size members))
    (array : ∀ base count baseSize, motive base → motive (.array base count baseSize)) :
    ∀ node, motive node :=
  @NbitNode.rec motive (fun members => ∀ m ∈ members, motive m.2) (fun m => motive m.2)
    atomic compound array (fun _ h => nomatch h)
    (fun _ _ hhead htail => forall_mem_cons.mpr ⟨hhead, htail⟩) (fun _ _ h => h)

/-- The number of bytes of what a node describes. -/
def byteSize : NbitNode → ℕ
  | atomic size _ _ _ => size
  | compound size _ => size
  | array _ count baseSize => count * baseSize

end NbitNode

def nbitError (message : String) : Halt FormatError :=
  .error (.chunkedReadError ("nbit: " ++ message))

def nbitCd (cd : List ℕ) (i : ℕ) : Run ℕ := okOr (nbitError "truncated client data") cd[i]?

/-- The deepest level of a node. -/
def nbitMaxDepth : ℕ := 64

/-- The members of a compound of `total` bytes, from `idx` on, and the position behind them. -/
def parseMembers (parseNode : ℕ → Run (NbitNode × ℕ)) (cd : List ℕ) (total : ℕ) :
    (nmembers idx : ℕ) → Run (List (ℕ × NbitNode) × ℕ)
  | 0, idx => .ok ([], idx)
  | nmembers + 1, idx => do
    let moff ← nbitCd cd idx
    let (node, idx) ← parseNode (idx + 1)
    reject (total < moff + node.byteSize) (nbitError "member exceeds compound size")
    let (members, idx) ← parseMembers parseNode cd total nmembers idx
    .ok ((moff, node) :: members, idx)

/-- The node at `idx` and the position behind it. The node's depth is
`nbitMaxDepth + 1 - fuel`. -/
def parseNbitNodeInner (cd : List ℕ) : (fuel idx : ℕ) → Run (NbitNode × ℕ)
  | 0, _ => .error (nbitError "type tree nested too deeply")
  | fuel + 1, idx => do
    match ← nbitCd cd idx with
    | 1 => do
      let size ← nbitCd cd (idx + 1)
      let bigEndian := (← nbitCd cd (idx + 2)) == 1
      let precision ← nbitCd cd (idx + 3)
      let bitOffset ← nbitCd cd (idx + 4)
      reject (size = 0 ∨ 8 < size ∨ precision = 0 ∨ size * 8 < bitOffset + precision)
        (nbitError "invalid atomic parameters")
      .ok (.atomic size bigEndian precision bitOffset, idx + 5)
    | 2 => do
      let total ← nbitCd cd (idx + 1)
      let (base, idx) ← parseNbitNodeInner cd fuel (idx + 2)
      let baseSize := base.byteSize
      reject (baseSize = 0 ∨ total % baseSize ≠ 0) (nbitError "invalid array layout")
      .ok (.array base (total / baseSize) baseSize, idx)
    | 3 => do
      let total ← nbitCd cd (idx + 1)
      let nmembers ← nbitCd cd (idx + 2)
      let (members, idx) ← parseMembers (parseNbitNodeInner cd fuel) cd total nmembers (idx + 3)
      .ok (.compound total members, idx)
    | _ => fail (.unsupportedFilter filterNbit)

/-- The node at `idx`, at the top of a tree. -/
def parseNbitNode (cd : List ℕ) (idx : ℕ) : Run (NbitNode × ℕ) :=
  parseNbitNodeInner cd (nbitMaxDepth + 1) idx

/-! ### The decoder -/

/-- Write the bits of a field, in `size` bytes from `base` on. -/
def storeField (elem : Bytes) (base size : ℕ) (bigEndian : Bool) (value : UInt64) : Run Bytes := do
  reject (elem.length < base + size) .panic
  .ok (overwrite elem base (orderBytes (le64 value) size bigEndian))

/-- Run a step for `i = 0, 1, …`, `count` times. -/
def forCount (step : ℕ → Bytes × ℕ → Run (Bytes × ℕ)) (count : ℕ) (s : Bytes × ℕ) :
    Run (Bytes × ℕ) :=
  (range count).foldlM (fun s i => step i s) s

mutual

/-- Decode a node at byte `base` of an element. The state is the element and the position in the
packed bits. -/
def decodeNbitNode (data : Bytes) : (node : NbitNode) → (base : ℕ) → Bytes × ℕ → Run (Bytes × ℕ)
  | .atomic size bigEndian precision bitOffset, base, (elem, pos) => do
    let (bits, pos) ← readBits (nbitError "packed data too short") data precision pos 0
    let elem ← storeField elem base size bigEndian (bits <<< UInt64.ofNat bitOffset)
    .ok (elem, pos)
  | .compound _ members, base, s => decodeMembers data members base s
  | .array node count baseSize, base, s =>
    forCount (fun i s => decodeNbitNode data node (base + i * baseSize) s) count s

/-- Decode the members of a compound, one after another. -/
def decodeMembers (data : Bytes) :
    (members : List (ℕ × NbitNode)) → (base : ℕ) → Bytes × ℕ → Run (Bytes × ℕ)
  | [], _, s => .ok s
  | (moff, child) :: members, base, s => do
    let s ← decodeNbitNode data child (base + moff) s
    decodeMembers data members base s

end

def decodeElements (data : Bytes) (root : NbitNode) (elemSize : ℕ) :
    (nelmts pos : ℕ) → Run Bytes
  | 0, _ => .ok []
  | nelmts + 1, pos => do
    let (elem, pos) ← decodeNbitNode data root 0 (replicate elemSize 0, pos)
    let rest ← decodeElements data root elemSize nelmts pos
    .ok (elem ++ rest)

/-- Decode a chunk. A vector of `2 ^ 63` bytes or more cannot be allocated. -/
def nbitDecompress (data : Bytes) (cd : List ℕ) (expectedBytes : ℕ) : Run Bytes := do
  reject (cd.length < 4) (nbitError "missing filter client data")
  let nelmts ← index cd 2
  let (root, _) ← parseNbitNode cd 3
  let elemSize := root.byteSize
  reject (elemSize = 0) (nbitError "zero element size")
  let total := nelmts * elemSize
  reject (2 ^ 64 ≤ total) (nbitError "size overflow")
  reject (expectedBytes ≠ 0 ∧ expectedBytes < total)
    (nbitError "element count exceeds chunk size")
  reject (2 ^ 63 ≤ total) .panic
  decodeElements data root elemSize nelmts 0

/-! ### Fields -/

/-- A field of an element: `precision` significant bits from bit `bitOffset` on, in `size` bytes
from byte `pos` on. -/
structure NbitField where
  pos : ℕ
  size : ℕ
  bigEndian : Bool
  precision : ℕ
  bitOffset : ℕ
  deriving DecidableEq

mutual

/-- The fields of a node that stands at byte `base`, in the order of the tree. -/
def NbitNode.fields : NbitNode → (base : ℕ) → List NbitField
  | .atomic size bigEndian precision bitOffset, base =>
    [⟨base, size, bigEndian, precision, bitOffset⟩]
  | .compound _ members, base => memberFields members base
  | .array node count baseSize, base =>
    (range count).flatMap fun i => node.fields (base + i * baseSize)

def memberFields : List (ℕ × NbitNode) → (base : ℕ) → List NbitField
  | [], _ => []
  | (moff, child) :: members, base => child.fields (base + moff) ++ memberFields members base

end

def decodeField (data : Bytes) (s : Bytes × ℕ) (f : NbitField) : Run (Bytes × ℕ) := do
  let (bits, pos) ← readBits (nbitError "packed data too short") data f.precision s.2 0
  let elem ← storeField s.1 f.pos f.size f.bigEndian (bits <<< UInt64.ofNat f.bitOffset)
  .ok (elem, pos)

theorem foldlM_flatMap {m : Type → Type} [Monad m] [LawfulMonad m] {α β σ : Type}
    (f : σ → β → m σ) (g : α → List β) (xs : List α) (s : σ) :
    (xs.flatMap g).foldlM f s = xs.foldlM (fun s x => (g x).foldlM f s) s := by
  induction xs generalizing s with
  | nil => rfl
  | cons x xs ih =>
    rw [flatMap_cons, foldlM_append]
    congr 1
    funext s
    exact ih s

/-- Walking the tree decodes its fields one after another. -/
theorem decodeNbitNode_eq (data : Bytes) (node : NbitNode) (base : ℕ) (s : Bytes × ℕ) :
    decodeNbitNode data node base s = (node.fields base).foldlM (decodeField data) s := by
  induction node generalizing base s with
  | atomic size bigEndian precision bitOffset =>
    exact (bind_pure _).symm
  | compound size members ih =>
    rw [NbitNode.fields, decodeNbitNode]
    induction members generalizing s with
    | nil =>
      rfl
    | cons m members ihm =>
      obtain ⟨hm, hmembers⟩ := forall_mem_cons.mp ih
      rw [decodeMembers, memberFields, foldlM_append, hm]
      congr 1
      funext s
      exact ihm hmembers s
  | array node count baseSize ih =>
    rw [NbitNode.fields, decodeNbitNode, forCount, foldlM_flatMap]
    simp only [ih]

/-! ### Trees that are accepted -/

/-- A field has bits, and they lie in its bytes. -/
structure NbitField.Valid (f : NbitField) : Prop where
  size_pos : 0 < f.size
  size_le : f.size ≤ 8
  precision_pos : 0 < f.precision
  bits_le : f.bitOffset + f.precision ≤ f.size * 8

/-- A tree whose fields lie inside what contains them. -/
inductive NbitNode.Valid : NbitNode → Prop
  | atomic {size : ℕ} {bigEndian : Bool} {precision bitOffset : ℕ}
      (h : NbitField.Valid ⟨0, size, bigEndian, precision, bitOffset⟩) :
      Valid (.atomic size bigEndian precision bitOffset)
  | compound {size : ℕ} {members : List (ℕ × NbitNode)}
      (hend : ∀ m ∈ members, m.1 + m.2.byteSize ≤ size) (h : ∀ m ∈ members, Valid m.2) :
      Valid (.compound size members)
  | array {base : NbitNode} {count : ℕ} (h : Valid base) :
      Valid (.array base count base.byteSize)

theorem yields_nbitCd (cd : List ℕ) (i : ℕ) : Yields (fun _ => True) (nbitCd cd i) :=
  yields_okOr fun _ _ => trivial

theorem parseMembers_valid {parseNode : ℕ → Run (NbitNode × ℕ)} {cd : List ℕ} {total : ℕ}
    (hnode : ∀ idx, Yields (fun r => r.1.Valid) (parseNode idx)) (nmembers idx : ℕ) :
    Yields (fun r => ∀ m ∈ r.1, m.1 + m.2.byteSize ≤ total ∧ m.2.Valid)
      (parseMembers parseNode cd total nmembers idx) := by
  induction nmembers generalizing idx with
  | zero => exact yields_ok nofun
  | succ nmembers ih =>
    rw [parseMembers]
    refine (yields_nbitCd cd idx).bind fun moff _ => (hnode (idx + 1)).bind fun r hr => ?_
    refine yields_reject_bind fun hend => (ih r.2).bind fun rest hrest => yields_ok ?_
    exact forall_mem_cons.mpr ⟨⟨not_lt.mp hend, hr⟩, hrest⟩

theorem parseNbitNodeInner_valid (cd : List ℕ) (fuel idx : ℕ) :
    Yields (fun r => r.1.Valid) (parseNbitNodeInner cd fuel idx) := by
  induction fuel generalizing idx with
  | zero => exact yields_error _
  | succ fuel ih =>
    rw [parseNbitNodeInner]
    refine (yields_nbitCd cd idx).bind fun nodeClass _ => ?_
    split
    · refine (yields_nbitCd cd _).bind fun size _ => (yields_nbitCd cd _).bind fun order _ => ?_
      refine (yields_nbitCd cd _).bind fun precision _ => ?_
      refine (yields_nbitCd cd _).bind fun offset _ => ?_
      refine yields_reject_bind fun h => yields_ok (.atomic ?_)
      constructor <;> dsimp only <;> omega
    · refine (yields_nbitCd cd _).bind fun total _ => (ih _).bind fun r hr => ?_
      exact yields_reject_bind fun _ => yields_ok (.array hr)
    · refine (yields_nbitCd cd _).bind fun total _ => (yields_nbitCd cd _).bind fun nmembers _ => ?_
      refine (parseMembers_valid ih nmembers _).bind fun r hr => yields_ok ?_
      exact .compound (fun m hm => (hr m hm).1) fun m hm => (hr m hm).2
    · exact yields_error _

theorem parseNbitNode_valid (cd : List ℕ) (idx : ℕ) :
    Yields (fun r => r.1.Valid) (parseNbitNode cd idx) := parseNbitNodeInner_valid cd _ idx

/-- The field lies between two bytes. -/
def NbitField.Within (f : NbitField) (first last : ℕ) : Prop :=
  first ≤ f.pos ∧ f.pos + f.size ≤ last

/-- The fields of an accepted tree are well-formed and lie inside the element. -/
theorem NbitNode.Valid.fields {node : NbitNode} (h : node.Valid) (base : ℕ) :
    ∀ f ∈ node.fields base, f.Valid ∧ f.Within base (base + node.byteSize) := by
  induction h generalizing base with
  | atomic h =>
    intro f hf
    rw [NbitNode.fields, mem_singleton] at hf
    subst hf
    exact ⟨⟨h.size_pos, h.size_le, h.precision_pos, h.bits_le⟩, le_rfl, le_rfl⟩
  | @compound size members hend hvalid ih =>
    rw [NbitNode.fields, byteSize]
    clear hvalid
    induction members with
    | nil =>
      rw [memberFields]
      nofun
    | cons m members ihm =>
      obtain ⟨hm, hmembers⟩ := forall_mem_cons.mp ih
      obtain ⟨hmend, hmembersEnd⟩ := forall_mem_cons.mp hend
      obtain ⟨moff, child⟩ := m
      intro f hf
      rw [memberFields, mem_append] at hf
      rcases hf with hf | hf
      · obtain ⟨hvalid, hfirst, hlast⟩ := hm (base + moff) f hf
        exact ⟨hvalid, by omega, by omega⟩
      · exact ihm hmembersEnd hmembers f hf
  | @array node count _ ih =>
    intro f hf
    rw [NbitNode.fields, mem_flatMap] at hf
    obtain ⟨i, hi, hf⟩ := hf
    obtain ⟨hvalid, hfirst, hlast⟩ := ih _ f hf
    have hcopy : (i + 1) * node.byteSize ≤ count * node.byteSize :=
      Nat.mul_le_mul_right _ (mem_range.mp hi)
    rw [Nat.succ_mul] at hcopy
    exact ⟨hvalid, by omega, by rw [byteSize]; omega⟩

/-! ### The decoder returns -/

theorem length_orderBytes {le : Bytes} {size : ℕ} (h : size ≤ le.length) (bigEndian : Bool) :
    (orderBytes le size bigEndian).length = size := by
  rw [orderBytes]
  cases bigEndian <;> simp [h]

theorem yields_storeField {elem : Bytes} {base size : ℕ} (hend : base + size ≤ elem.length)
    (hsize : size ≤ 8) (bigEndian : Bool) (value : UInt64) :
    Yields (fun e => e.length = elem.length) (storeField elem base size bigEndian value) := by
  have hlen : (orderBytes (le64 value) size bigEndian).length = size :=
    length_orderBytes (by rwa [length_le64]) bigEndian
  rw [storeField, reject_of_not (not_lt.mpr hend)]
  refine yields_ok ?_
  rw [length_overwrite (by omega)]
  omega

theorem yields_readBits (data : Bytes) (n pos : ℕ) (value : UInt64) :
    Yields (fun _ => True) (readBits (nbitError "packed data too short") data n pos value) := by
  refine ⟨fun hpanic => ?_, fun _ _ => trivial⟩
  cases (readBits_eq_error hpanic).1

theorem yields_decodeField {data : Bytes} {n : ℕ} {f : NbitField} (hf : f.Valid)
    (hend : f.pos + f.size ≤ n) {s : Bytes × ℕ} (hs : s.1.length = n) :
    Yields (fun s => s.1.length = n) (decodeField data s f) := by
  refine (yields_readBits data f.precision s.2 0).bind fun r _ => ?_
  refine (yields_storeField (by omega) hf.size_le _ _).bind fun elem helem => yields_ok ?_
  rw [helem, hs]

theorem yields_decodeElements {data : Bytes} {root : NbitNode} (hroot : root.Valid)
    (nelmts pos : ℕ) :
    Yields (fun out => out.length = nelmts * root.byteSize)
      (decodeElements data root root.byteSize nelmts pos) := by
  induction nelmts generalizing pos with
  | zero => exact yields_ok (zero_mul _).symm
  | succ nelmts ih =>
    have helem : Yields (fun s : Bytes × ℕ => s.1.length = root.byteSize)
        (decodeNbitNode data root 0 (replicate root.byteSize 0, pos)) := by
      rw [decodeNbitNode_eq]
      refine yields_foldlM length_replicate ?_
      intro s f hf hs
      obtain ⟨hvalid, -, hend⟩ := hroot.fields 0 f hf
      exact yields_decodeField hvalid (by omega) hs
    refine helem.bind fun s hs => (ih s.2).bind fun rest hrest => yields_ok ?_
    rw [length_append, hs, hrest, Nat.succ_mul, add_comm]

/-- The decoder returns a value or an error, unless what it has to allocate is too large. -/
theorem returns_nbitDecompress {data : Bytes} {cd : List ℕ} {expectedBytes : ℕ}
    (halloc : ∀ nelmts root idx, cd[2]? = some nelmts → parseNbitNode cd 3 = .ok (root, idx) →
      expectedBytes = 0 ∨ nelmts * root.byteSize ≤ expectedBytes →
        nelmts * root.byteSize < 2 ^ 63) :
    Returns (nbitDecompress data cd expectedBytes) := by
  refine returns_reject_bind.mpr fun hcd => ?_
  have hcount : cd[2]? = some cd[2] := getElem?_eq_getElem (by omega)
  rw [index_eq_ok.mpr hcount, ok_bind, returns_bind]
  refine ⟨(parseNbitNode_valid cd 3).1, fun r hr => ?_⟩
  have hroot := (parseNbitNode_valid cd 3).2 r hr
  refine returns_reject_bind.mpr fun _ => returns_reject_bind.mpr fun _ => ?_
  refine returns_reject_bind.mpr fun hexpected => ?_
  rw [reject_bind (not_le.mpr (halloc _ r.1 r.2 hcount hr (by omega)))]
  exact (yields_decodeElements hroot _ 0).1

/-! ### What is packed is decoded -/

namespace NbitField

def bytes (f : NbitField) (v : ℕ) : Bytes :=
  if f.bigEndian then (leBytes f.size (v * 2 ^ f.bitOffset)).reverse
  else leBytes f.size (v * 2 ^ f.bitOffset)

/-- The bytes of two fields do not overlap. -/
def Disjoint (f g : NbitField) : Prop := f.pos + f.size ≤ g.pos ∨ g.pos + g.size ≤ f.pos

/-- The place of a byte among the bytes of a field, the least significant first. -/
def place (f : NbitField) (p : ℕ) : ℕ :=
  if f.bigEndian then f.size - 1 - (p - f.pos) else p - f.pos

/-- Bit `j` of byte `p` of an element is one of the significant bits of a field. -/
def Significant (f : NbitField) (p j : ℕ) : Prop :=
  f.pos ≤ p ∧ p < f.pos + f.size ∧
    f.bitOffset ≤ 8 * f.place p + j ∧ 8 * f.place p + j < f.bitOffset + f.precision

variable {f : NbitField} {v : ℕ}

@[simp] theorem length_bytes (f : NbitField) (v : ℕ) : (f.bytes v).length = f.size := by
  rw [bytes]
  split <;> simp

theorem Valid.shifted_lt (hf : f.Valid) (hv : v < 2 ^ f.precision) :
    v * 2 ^ f.bitOffset < 2 ^ 64 := by
  have hle := hf.bits_le
  have hsize := hf.size_le
  calc v * 2 ^ f.bitOffset < 2 ^ f.precision * 2 ^ f.bitOffset :=
        mul_lt_mul_of_pos_right hv (by positivity)
    _ = 2 ^ (f.precision + f.bitOffset) := (pow_add ..).symm
    _ ≤ 2 ^ 64 := Nat.pow_le_pow_right two_pos (by omega)

/-- What the decoder stores is the field. -/
theorem Valid.orderBytes_eq (hf : f.Valid) (hv : v < 2 ^ f.precision) :
    orderBytes (le64 (UInt64.ofNat v <<< UInt64.ofNat f.bitOffset)) f.size f.bigEndian =
      f.bytes v := by
  have hlt := hf.shifted_lt hv
  have hle := hf.bits_le
  have hsize := hf.size_le
  have hoffset : f.bitOffset < 64 := by have := hf.precision_pos; omega
  have hvalue : v < 2 ^ 64 := hv.trans_le (Nat.pow_le_pow_right two_pos (by omega))
  have hword : (UInt64.ofNat v <<< UInt64.ofNat f.bitOffset).toNat = v * 2 ^ f.bitOffset := by
    rw [UInt64.toNat_shiftLeft, WordBits.toNat_ofNat_of_lt hoffset, Nat.mod_eq_of_lt hoffset,
      UInt64.toNat_ofNat_of_lt' hvalue, Nat.shiftLeft_eq, Nat.mod_eq_of_lt hlt]
  rw [orderBytes, bytes, le64, hword, take_leBytes hsize]

/-- The bits that are set in a field are significant. -/
theorem significant_of_testBit (hv : v < 2 ^ f.precision) {i j : ℕ} {b : UInt8}
    (hb : (f.bytes v)[i]? = some b) (hj : b.toNat.testBit j = true) :
    f.Significant (f.pos + i) j := by
  have hi : i < f.size := by
    have := lt_of_getElem? hb
    rwa [length_bytes] at this
  -- the byte, found from the least significant end
  have hbyte : (leBytes f.size (v * 2 ^ f.bitOffset))[f.place (f.pos + i)]? = some b := by
    rw [bytes] at hb
    rw [place, Nat.add_sub_cancel_left]
    cases hbig : f.bigEndian with
    | false => rwa [hbig] at hb
    | true =>
      rw [hbig, if_pos rfl, getElem?_reverse (by rwa [length_leBytes]), length_leBytes] at hb
      rwa [if_pos rfl]
  have hj8 : j < 8 := lt_of_testBit b.toNat_lt hj
  rw [testBit_leBytes hbyte hj8, Nat.testBit_mul_two_pow, Bool.and_eq_true,
    decide_eq_true_iff] at hj
  have hbit := lt_of_testBit hv hj.2
  exact ⟨by omega, by omega, hj.1, by omega⟩

end NbitField

/-- A value for each field of an element. -/
structure Assignment (fields : List NbitField) where
  entries : List (NbitField × ℕ)
  fields_eq : entries.map Prod.fst = fields
  value_lt : ∀ e ∈ entries, e.2 < 2 ^ e.1.precision

/-- The significant bits of the fields, one field after another. -/
def packFields (entries : List (NbitField × ℕ)) : List Bool :=
  entries.flatMap fun e => msbBits e.1.precision e.2

/-- Write fields into an element, one after another. -/
def placeFields (elem : Bytes) (entries : List (NbitField × ℕ)) : Bytes :=
  entries.foldl (fun elem e => overwrite elem e.1.pos (e.1.bytes e.2)) elem

section

variable {data elem : Bytes} {pos : ℕ} {f : NbitField} {v : ℕ} {entries : List (NbitField × ℕ)}

theorem length_overwrite_bytes (hend : f.pos + f.size ≤ elem.length) :
    (overwrite elem f.pos (f.bytes v)).length = elem.length := by
  rw [length_overwrite (by omega), NbitField.length_bytes]
  omega

theorem length_placeFields (h : ∀ e ∈ entries, e.1.pos + e.1.size ≤ elem.length) :
    (placeFields elem entries).length = elem.length := by
  induction entries generalizing elem with
  | nil => rfl
  | cons e entries ih =>
    obtain ⟨he, hentries⟩ := forall_mem_cons.mp h
    have hlen := length_overwrite_bytes (v := e.2) he
    rw [placeFields]
    exact (ih (by rwa [hlen])).trans hlen

theorem decodeField_of_standsAt (hf : f.Valid) (hend : f.pos + f.size ≤ elem.length)
    (hv : v < 2 ^ f.precision) (h : StandsAt (bitsOf data) pos (msbBits f.precision v)) :
    decodeField data (elem, pos) f = .ok (overwrite elem f.pos (f.bytes v), pos + f.precision) := by
  have hprecision : f.precision ≤ 64 := by
    have hle := hf.bits_le
    have hsize := hf.size_le
    omega
  rw [decodeField, readBits_of_standsAt hprecision hv h, ok_bind]
  dsimp only
  rw [storeField, reject_bind (not_lt.mpr hend), hf.orderBytes_eq hv]
  rfl

theorem foldlM_decodeField_of_standsAt
    (hentries : ∀ e ∈ entries, e.1.Valid ∧ e.1.pos + e.1.size ≤ elem.length ∧
      e.2 < 2 ^ e.1.precision)
    (h : StandsAt (bitsOf data) pos (packFields entries)) :
    (entries.map Prod.fst).foldlM (decodeField data) (elem, pos) =
      .ok (placeFields elem entries, pos + (packFields entries).length) := by
  induction entries generalizing elem pos with
  | nil => rfl
  | cons e entries ih =>
    obtain ⟨⟨hvalid, hend, hv⟩, hentries⟩ := forall_mem_cons.mp hentries
    rw [packFields, flatMap_cons, standsAt_append, length_msbBits] at h
    have hlen := length_overwrite_bytes (v := e.2) hend
    rw [map_cons, foldlM_cons, decodeField_of_standsAt hvalid hend hv h.1, ok_bind,
      ih (by rwa [hlen]) h.2, packFields, packFields, flatMap_cons, length_append,
      length_msbBits, add_assoc]
    rfl

section

variable (hend : ∀ e ∈ entries, e.1.pos + e.1.size ≤ elem.length)
include hend

/-- Writes that do not overlap a field leave it as it is. -/
theorem take_drop_placeFields (hdisjoint : ∀ e ∈ entries, f.Disjoint e.1) :
    ((placeFields elem entries).drop f.pos).take f.size = (elem.drop f.pos).take f.size := by
  induction entries generalizing elem with
  | nil => rfl
  | cons e entries ih =>
    obtain ⟨he, hentries⟩ := forall_mem_cons.mp hend
    obtain ⟨hde, hdentries⟩ := forall_mem_cons.mp hdisjoint
    have hlen := length_overwrite_bytes (v := e.2) he
    refine (ih (by rwa [hlen]) hdentries).trans (take_drop_overwrite ?_ ?_)
    · rwa [NbitField.length_bytes]
    · rwa [NbitField.length_bytes]

/-- A field that no other overlaps holds its bits. -/
theorem field_placeFields {k : ℕ} (hk : entries[k]? = some (f, v))
    (hdisjoint : ∀ (i : ℕ) g w, entries[i]? = some (g, w) → i ≠ k → f.Disjoint g) :
    ((placeFields elem entries).drop f.pos).take f.size = f.bytes v := by
  induction entries generalizing elem k with
  | nil => cases hk
  | cons e entries ih =>
    obtain ⟨he, hentries⟩ := forall_mem_cons.mp hend
    have hlen := length_overwrite_bytes (v := e.2) he
    cases k with
    | zero =>
      -- the writes behind it do not touch the field
      obtain rfl := Option.some.inj hk
      have hothers : ∀ e ∈ entries, f.Disjoint e.1 := by
        intro e he
        obtain ⟨i, hi⟩ := mem_iff_getElem?.mp he
        exact hdisjoint (i + 1) e.1 e.2 hi (Nat.succ_ne_zero i)
      refine (take_drop_placeFields (by rwa [hlen]) hothers).trans ?_
      dsimp only at he ⊢
      rw [drop_overwrite _ (by omega)]
      nth_rewrite 1 [← NbitField.length_bytes f v]
      exact take_left
    | succ k =>
      refine ih (by rwa [hlen]) hk fun i g w hi hne => ?_
      exact hdisjoint (i + 1) g w hi fun h => hne (Nat.succ.inj h)

/-- The bits that are set are those of the element before, and significant bits of fields. -/
theorem significant_placeFields (hvalue : ∀ e ∈ entries, e.2 < 2 ^ e.1.precision) {p j : ℕ}
    {b : UInt8} (hb : (placeFields elem entries)[p]? = some b) (hj : b.toNat.testBit j = true) :
    (∃ c, elem[p]? = some c ∧ c.toNat.testBit j = true) ∨ ∃ e ∈ entries, e.1.Significant p j := by
  induction entries generalizing elem with
  | nil => exact .inl ⟨b, hb, hj⟩
  | cons e entries ih =>
    obtain ⟨he, hentries⟩ := forall_mem_cons.mp hend
    obtain ⟨hv, hvalues⟩ := forall_mem_cons.mp hvalue
    have hlen := length_overwrite_bytes (v := e.2) he
    rcases ih (by rwa [hlen]) hvalues hb with ⟨c, hc, hbit⟩ | ⟨d, hd, hsig⟩
    · rw [getElem?_overwrite (by rwa [NbitField.length_bytes])] at hc
      split_ifs at hc with hp
      · refine .inr ⟨e, mem_cons_self, ?_⟩
        have hsig := NbitField.significant_of_testBit hv hc hbit
        rwa [Nat.add_sub_cancel' hp.1] at hsig
      · exact .inl ⟨c, hc, hbit⟩
    · exact .inr ⟨d, mem_cons_of_mem e hd, hsig⟩

end

end

/-- An element holds the values of an assignment: the bytes of each field that no other field
overlaps, and no bit outside the significant bits of the fields. -/
structure Assignment.HeldBy {fields : List NbitField} (a : Assignment fields) (elem : Bytes) :
    Prop where
  field : ∀ (k : ℕ) f v, a.entries[k]? = some (f, v) →
    (∀ (i : ℕ) g w, a.entries[i]? = some (g, w) → i ≠ k → f.Disjoint g) →
      (elem.drop f.pos).take f.size = f.bytes v
  zero : ∀ (p : ℕ) b j, elem[p]? = some b → b.toNat.testBit j = true →
    ∃ f ∈ fields, f.Significant p j

def Assignment.element {fields : List NbitField} (a : Assignment fields) (size : ℕ) : Bytes :=
  placeFields (replicate size 0) a.entries

section

variable {root : NbitNode} {data : Bytes} {pos : ℕ}

section

variable (hroot : root.Valid) (a : Assignment (root.fields 0))
include hroot a

theorem NbitNode.Valid.entries : ∀ e ∈ a.entries, e.1.Valid ∧ e.1.pos + e.1.size ≤ root.byteSize ∧
      e.2 < 2 ^ e.1.precision := by
  intro e he
  have hmem : e.1 ∈ root.fields 0 := by
    rw [← a.fields_eq]
    exact mem_map_of_mem he
  obtain ⟨hvalid, -, hend⟩ := hroot.fields 0 e.1 hmem
  exact ⟨hvalid, by omega, a.value_lt e he⟩

theorem NbitNode.Valid.length_element : (a.element root.byteSize).length = root.byteSize := by
  rw [Assignment.element, length_placeFields, length_replicate]
  intro e he
  rw [length_replicate]
  exact (hroot.entries a e he).2.1

theorem NbitNode.Valid.heldBy_element : a.HeldBy (a.element root.byteSize) := by
  have hend : ∀ e ∈ a.entries,
      e.1.pos + e.1.size ≤ (replicate root.byteSize (0 : UInt8)).length := by
    intro e he
    rw [length_replicate]
    exact (hroot.entries a e he).2.1
  constructor
  · intro k f v hk hdisjoint
    exact field_placeFields hend hk hdisjoint
  · intro p b j hb hj
    rcases significant_placeFields hend a.value_lt hb hj with ⟨c, hc, hbit⟩ | ⟨e, he, hsig⟩
    · -- the element starts from zeros
      obtain rfl := eq_of_mem_replicate (mem_of_getElem? hc)
      simp at hbit
    · refine ⟨e.1, ?_, hsig⟩
      rw [← a.fields_eq]
      exact mem_map_of_mem he

end

theorem decodeElements_of_standsAt (hroot : root.Valid)
    {elements : List (Assignment (root.fields 0))}
    (h : StandsAt (bitsOf data) pos (elements.flatMap fun a => packFields a.entries)) :
    decodeElements data root root.byteSize elements.length pos =
      .ok (elements.flatMap fun a => a.element root.byteSize) := by
  induction elements generalizing pos with
  | nil => rfl
  | cons a elements ih =>
    rw [flatMap_cons, standsAt_append] at h
    have hentries : ∀ e ∈ a.entries, e.1.Valid ∧
        e.1.pos + e.1.size ≤ (replicate root.byteSize (0 : UInt8)).length ∧
          e.2 < 2 ^ e.1.precision := by
      rw [length_replicate]
      exact hroot.entries a
    have hfields := foldlM_decodeField_of_standsAt hentries h.1
    rw [a.fields_eq] at hfields
    rw [length_cons, decodeElements, decodeNbitNode_eq, hfields, ok_bind]
    dsimp only
    rw [ih h.2]
    rfl

/-- A chunk of packed elements is decoded to elements that hold their values. -/
theorem nbitDecompress_of_packed {cd : List ℕ} {idx expectedBytes : ℕ}
    {elements : List (Assignment (root.fields 0))} (hroot : parseNbitNode cd 3 = .ok (root, idx))
    (hcount : cd[2]? = some elements.length) (hsize : root.byteSize ≠ 0)
    (hexpected : expectedBytes = 0 ∨ elements.length * root.byteSize ≤ expectedBytes)
    (halloc : elements.length * root.byteSize < 2 ^ 63)
    (hpacked : (elements.flatMap fun a => packFields a.entries) <+: bitsOf data) :
    nbitDecompress data cd expectedBytes =
      .ok (elements.flatMap fun a => a.element root.byteSize) := by
  have hvalid := (parseNbitNode_valid cd 3).2 _ hroot
  have hcd : 4 ≤ cd.length := by
    -- the tree was read from the fourth word on
    by_contra hlt
    have hnone : cd[3]? = none := getElem?_eq_none (by omega)
    rw [parseNbitNode, nbitMaxDepth, parseNbitNodeInner, nbitCd, hnone] at hroot
    cases hroot
  have hstands : StandsAt (bitsOf data) 0 (elements.flatMap fun a => packFields a.entries) := by
    obtain ⟨after, hafter⟩ := hpacked
    exact ⟨[], after, hafter.symm, rfl⟩
  rw [nbitDecompress, reject_bind (by omega), index_eq_ok.mpr hcount, ok_bind, hroot, ok_bind]
  dsimp only
  rw [reject_bind hsize, reject_bind (by omega), reject_bind (by omega),
    reject_bind (not_le.mpr halloc), decodeElements_of_standsAt hvalid hstands]

end

/-- For a tree that is accepted and describes at least one byte, packed elements are decoded to
elements that hold their values; and on any input the decoder returns a value or an error. Both as
long as the output can be allocated. -/
theorem nbitDecompress_spec :
    (∀ (cd : List ℕ) (root : NbitNode) (idx : ℕ) (elements : List (Assignment (root.fields 0)))
        (data : Bytes) (expectedBytes : ℕ),
      parseNbitNode cd 3 = .ok (root, idx) → cd[2]? = some elements.length →
      root.byteSize ≠ 0 → elements.length * root.byteSize < 2 ^ 63 →
      (expectedBytes = 0 ∨ elements.length * root.byteSize ≤ expectedBytes) →
      (elements.flatMap fun a => packFields a.entries) <+: bitsOf data →
      ∃ out, nbitDecompress data cd expectedBytes = .ok out ∧
        out.length = elements.length * root.byteSize ∧
        ∀ (i : ℕ) a, elements[i]? = some a → a.HeldBy (cell root.byteSize out i)) ∧
    ∀ (cd : List ℕ) (data : Bytes) (expectedBytes : ℕ),
      (∀ nelmts root idx, cd[2]? = some nelmts → parseNbitNode cd 3 = .ok (root, idx) →
        expectedBytes = 0 ∨ nelmts * root.byteSize ≤ expectedBytes →
          nelmts * root.byteSize < 2 ^ 63) →
      Returns (nbitDecompress data cd expectedBytes) := by
  refine ⟨?_, fun cd data expectedBytes => returns_nbitDecompress⟩
  intro cd root idx elements data expectedBytes hroot hcount hsize halloc hexpected hpacked
  have hvalid := (parseNbitNode_valid cd 3).2 _ hroot
  refine ⟨_, nbitDecompress_of_packed hroot hcount hsize hexpected halloc hpacked, ?_, ?_⟩
  · exact length_slots (fun a => hvalid.length_element a) elements
  · intro i a hi
    rw [cell_flatMap (fun a => hvalid.length_element a) hi]
    exact hvalid.heldBy_element a

/-- A compound of a big-endian field of two bytes and an array of three fields of one byte. -/
def nbitSampleTree : NbitNode :=
  .compound 5 [(0, .atomic 2 true 12 4), (2, .array (.atomic 1 false 3 2) 3 1)]

/-- Values of the sample's fields. -/
def nbitSampleElement (values : Fin 8 × Fin 8 × Fin 8) (first : Fin 4096) :
    Assignment (nbitSampleTree.fields 0) where
  entries := [(⟨0, 2, true, 12, 4⟩, first), (⟨2, 1, false, 3, 2⟩, values.1),
    (⟨3, 1, false, 3, 2⟩, values.2.1), (⟨4, 1, false, 3, 2⟩, values.2.2)]
  fields_eq := by rfl
  value_lt := by
    intro e he
    simp only [List.mem_cons, List.not_mem_nil, or_false] at he
    rcases he with rfl | rfl | rfl | rfl
    · exact first.isLt
    · exact values.1.isLt
    · exact values.2.1.isLt
    · exact values.2.2.isLt

theorem nbitDecompress_spec_two :
    (∃ out, nbitDecompress [0xab, 0xca, 0xb8, 0x00, 0x87, 0x80]
        [20, 0, 2, 3, 5, 2, 0, 1, 2, 1, 12, 4, 2, 2, 3, 1, 1, 0, 3, 2] 10 = .ok out ∧
      out.length = 10 ∧
      ∀ (i : ℕ) a, [nbitSampleElement (5, 2, 7) 0xabc, nbitSampleElement (0, 3, 6) 1][i]? = some a →
        a.HeldBy (cell 5 out i)) ∧
    Returns (nbitDecompress [7] [8, 0, 1, 1, 4, 0, 32, 0] 0) := by
  refine ⟨nbitDecompress_spec.1 _ nbitSampleTree 20
    [nbitSampleElement (5, 2, 7) 0xabc, nbitSampleElement (0, 3, 6) 1] _ 10 (by rfl) rfl (by decide)
    (by decide) (.inr (by decide)) (by decide +kernel), nbitDecompress_spec.2 _ _ _ ?_⟩
  intro nelmts root idx hcount hroot _
  have hparse : parseNbitNode [8, 0, 1, 1, 4, 0, 32, 0] 3 = .ok (.atomic 4 false 32 0, 8) := by rfl
  obtain rfl : 1 = nelmts := Option.some.inj hcount
  obtain ⟨rfl, -⟩ := Prod.mk.inj (Except.ok.inj (hparse.symm.trans hroot))
  decide

example : nbitDecompress [0xab, 0xca, 0xb8, 0x00, 0x87, 0x80]
    [20, 0, 2, 3, 5, 2, 0, 1, 2, 1, 12, 4, 2, 2, 3, 1, 1, 0, 3, 2] 10 =
      .ok [0xab, 0xc0, 0x14, 0x08, 0x1c, 0x00, 0x10, 0x00, 0x0c, 0x18] := by decide +kernel

/-- A tree of no bytes is accepted by its reader and refused by the decoder, and an output that is
too large to allocate panics. -/
theorem nbitDecompress_empty_or_huge :
    (parseNbitNode [6, 0, 1, 3, 0, 0] 3 = .ok (.compound 0 [], 6) ∧
      nbitDecompress [] [6, 0, 1, 3, 0, 0] 0 = .error (nbitError "zero element size")) ∧
    nbitDecompress [] [6, 0, 0xffffffff, 3, 0xffffffff, 0] 0 = .error .panic := by
  refine ⟨⟨by rfl, by rfl⟩, by decide +kernel⟩

end ClawHdf5.Format
