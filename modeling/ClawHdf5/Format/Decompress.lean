import ClawHdf5.Format.Filters
import ClawHdf5.Format.Nbit
import ClawHdf5.Math.RowMajor

/-!
# Decompressing a chunk

A chunk passes through the filters of its pipeline in reverse order. The third-party decoders enter
as functions, and so does what they promise: that they decode what their encoders produce.
-/

namespace ClawHdf5.Format

open Bytes Fallible List Except Nat UInt32

variable {buffer data result c : Bytes} {moves : List (ℕ × UInt8)} {elementSize : ℕ}

/-- The third-party decoders: of zlib streams, of LZ4 blocks into at most `size` bytes, of Zstandard
frames, of Pcodec, and of the entropy coder behind SZIP. An error carries its message, or its
number; floating-point arithmetic belongs to the machine. -/
structure Decoders where
  inflate : Bytes → Except String Bytes
  lz4 : Bytes → (size : ℕ) → Except String Bytes
  zstd : Bytes → Except String Bytes
  pco : (elementSize : ℕ) → Bytes → Except String Bytes
  aec : Bytes → (bitsPerSample blockSize rsi flags availOut : ℕ) → Except ℤ Bytes
  floats : FloatOps

/-! ### Filters undone -/

/-- The bytes of each element from their planes. -/
def shuffleDecompress (data : Bytes) (elementSize : ℕ) : Run Bytes :=
  if elementSize ≤ 1 then .ok data
  else if data.length % elementSize ≠ 0 then
    fail (.filterError "shuffle: data length not a multiple of element size")
  else
    let numElements := data.length / elementSize
    .ok <| assign (replicate data.length 0) <|
      (range numElements).flatMap fun i => (range elementSize).map fun j =>
        (i * elementSize + j, data.getD (j * numElements + i) 0)

/-- The result of a third-party decoder, with what introduces its error message. -/
def decompressed (label : String) : Except String Bytes → Run Bytes
  | .ok result => .ok result
  | .error message => fail (.decompressionError (label ++ message))

/-- An LZ4 block behind the size of what it encodes. -/
def lz4Decompress (decoders : Decoders) (data : Bytes) : Run Bytes := do
  reject (data.length < 4) (.error (.decompressionError "lz4: data too short"))
  let origSize ← leAt data 0 4
  let block ← sliceFrom data 4
  decompressed "lz4: " (decoders.lz4 block origSize)

/-- Numbers through Pcodec, as their bytes. -/
def pcodecDecompress (decoders : Decoders) (data : Bytes) (elementSize : ℕ) : Run Bytes :=
  decompressed "pco: " (decoders.pco elementSize data)

/-- Bits of the entropy coder's options. -/
def aecDataMsb : ℕ := 4

def aecDataPreprocess : ℕ := 8

/-- SZIP, through its entropy coder. -/
def szipDecompress (decoders : Decoders) (data : Bytes) (cd : List ℕ) (chunkSize : ℕ) :
    Run Bytes := do
  reject (cd.length < 3) (.error (.chunkedReadError "szip: missing client data"))
  let options ← index cd 0
  let pixelsPerBlock ← index cd 1
  let bitsPerSample ← index cd 2
  reject (bitsPerSample = 0 ∨ 32 < bitsPerSample)
    (.error (.chunkedReadError "szip: invalid bits per sample"))
  reject (chunkSize = 0) (.error (.chunkedReadError "szip: unknown output size"))
  reject (data = []) (.error (.chunkedReadError "szip: empty input"))
  let flags := if options &&& 0x20 ≠ 0 then aecDataMsb ||| aecDataPreprocess else aecDataMsb
  match decoders.aec data bitsPerSample pixelsPerBlock 128 flags chunkSize with
  | .ok out => .ok out
  | .error result => fail (.decompressionError s!"szip: libaec error {result}")

def decompressFilter (decoders : Decoders) (chunkSize elementSize : ℕ) (data : Bytes)
    (f : FilterDescription) : Run Bytes :=
  if f.filterId = filterShuffle then shuffleDecompress data elementSize
  else if f.filterId = filterDeflate then decompressed "" (decoders.inflate data)
  else if f.filterId = filterLz4 then lz4Decompress decoders data
  else if f.filterId = filterZstd then decompressed "zstd: " (decoders.zstd data)
  else if f.filterId = filterFletcher32 then fletcher32Verify data
  else if f.filterId = filterPcodec then pcodecDecompress decoders data elementSize
  else if f.filterId = filterScaleoffset then
    scaleoffsetDecompress decoders.floats data f.clientData chunkSize
  else if f.filterId = filterNbit then nbitDecompress data f.clientData chunkSize
  else if f.filterId = filterSzip then szipDecompress decoders data f.clientData chunkSize
  else fail (.unsupportedFilter f.filterId)

/-- A chunk through the filters of a pipeline, in reverse order. -/
def decompressChunk (decoders : Decoders) (compressed : Bytes) (pipeline : FilterPipeline)
    (chunkSize elementSize : ℕ) : Run Bytes :=
  pipeline.filters.reverse.foldlM (decompressFilter decoders chunkSize elementSize) compressed

/-! ### Shuffling -/

theorem getElem?_assign_of_not_mem {p : ℕ} (h : ∀ w, (p, w) ∉ moves) :
    (assign buffer moves)[p]? = buffer[p]? := by
  induction moves generalizing buffer with
  | nil => rfl
  | cons move moves ih =>
    have hne : move.1 ≠ p := fun heq => h move.2 (heq ▸ mem_cons_self)
    rw [assign]
    refine (ih fun w hw => h w (mem_cons_of_mem move hw)).trans ?_
    exact getElem?_set_ne hne

/-- A byte keeps the value that was assigned to it, if no other value was. -/
theorem getElem?_assign {p : ℕ} {v : UInt8} (hp : p < buffer.length) (hmem : (p, v) ∈ moves)
    (hagree : ∀ w, (p, w) ∈ moves → w = v) : (assign buffer moves)[p]? = some v := by
  induction moves generalizing buffer with
  | nil => cases hmem
  | cons move moves ih =>
    by_cases hlater : (p, v) ∈ moves
    · refine ih (by rwa [length_set]) hlater fun w hw => ?_
      exact hagree w (mem_cons_of_mem move hw)
    · -- this is the last assignment to the byte
      obtain rfl : (p, v) = move := (mem_cons.mp hmem).resolve_right hlater
      have hnone : ∀ w, (p, w) ∉ moves := by
        intro w hw
        exact hlater (hagree w (mem_cons_of_mem _ hw) ▸ hw)
      refine (getElem?_assign_of_not_mem hnone).trans ?_
      exact getElem?_set_self hp

/-- The moves take every byte of `n` elements of `elementSize` bytes to its plane. -/
structure Transposes (data : Bytes) (n elementSize : ℕ) (moves : List (ℕ × UInt8)) : Prop where
  sound : ∀ move ∈ moves, ∃ i < n, ∃ j < elementSize, move = shuffleMove data n elementSize i j
  complete : ∀ i < n, ∀ j < elementSize, shuffleMove data n elementSize i j ∈ moves

/-- Where a byte of an element is found after the moves. -/
theorem Transposes.getElem? {n : ℕ} (h : Transposes data n elementSize moves)
    (hbuffer : buffer.length = elementSize * n) {i j : ℕ} (hi : i < n) (hj : j < elementSize) :
    (assign buffer moves)[j * n + i]? = some (data.getD (i * elementSize + j) 0) := by
  have hp : j * n + i < buffer.length := by
    have hle : (j + 1) * n ≤ elementSize * n := mul_le_mul_right n hj
    rw [succ_mul] at hle
    omega
  refine getElem?_assign hp (h.complete i hi j hj) fun w hw => ?_
  obtain ⟨i', hi', j', -, heq⟩ := h.sound _ hw
  obtain ⟨hplace, rfl⟩ := Prod.mk.inj heq
  obtain ⟨rfl, rfl⟩ := RowMajor.mul_add_inj hi hi' hplace
  rfl

/-- The scalar double loop. -/
theorem transposes_scalar (data : Bytes) (n elementSize : ℕ) :
    Transposes data elementSize n ((range n).flatMap fun i =>
      (range elementSize).map fun j => shuffleMove data elementSize n j i) := by
  constructor
  · intro move hmove
    simp only [mem_flatMap, mem_map, mem_range] at hmove
    obtain ⟨i, hi, j, hj, rfl⟩ := hmove
    exact ⟨j, hj, i, hi, rfl⟩
  · intro j hj i hi
    simp only [mem_flatMap, mem_map, mem_range]
    exact ⟨i, hi, j, hj, rfl⟩

theorem transposes_general (data : Bytes) (n elementSize : ℕ) :
    Transposes data n elementSize ((range ((n + 63) / 64)).flatMap fun block =>
      (range elementSize).flatMap fun j =>
        (range (min (block * 64 + 64) n - block * 64)).map fun k =>
          shuffleMove data n elementSize (block * 64 + k) j) := by
  constructor
  · intro move hmove
    simp only [mem_flatMap, mem_map, mem_range] at hmove
    obtain ⟨block, hblock, j, hj, k, hk, rfl⟩ := hmove
    exact ⟨block * 64 + k, by omega, j, hj, rfl⟩
  · intro i hi j hj
    simp only [mem_flatMap, mem_map, mem_range]
    have hsplit : i / 64 * 64 + i % 64 = i := div_add_mod' i 64
    refine ⟨i / 64, by omega, j, hj, i % 64, by omega, ?_⟩
    rw [hsplit]

/-- A byte of a word, by shifting. -/
theorem toUInt8_shiftRight_ofLe32 {bs : Bytes} (hbs : bs.length = 4) {j : ℕ} (hj : j < 4) :
    (ofLe32 bs >>> ofNat (8 * j)).toUInt8 = bs.getD j 0 := by
  have hlt : ofLeBytes bs < 2 ^ 32 := (ofLeBytes_lt bs).trans_eq (by rw [hbs]; rfl)
  have hshift : 8 * j < 32 := by omega
  have hpow : 256 ^ j = 2 ^ (8 * j) := by rw [Nat.pow_mul]
  -- the bytes are those of the number they make up
  have hbyte : bs[j]? = some (UInt8.ofNat (ofLeBytes bs / 256 ^ j)) := by
    have hread := getElem?_leBytes hj (ofLeBytes bs)
    rwa [← hbs, leBytes_ofLeBytes] at hread
  rw [getD_eq_getElem?_getD, hbyte, Option.getD_some]
  apply UInt8.toNat_inj.mp
  rw [toNat_toUInt8, UInt32.toNat_shiftRight, ofLe32, toNat_ofNat_of_lt' hlt,
    toNat_ofNat_of_lt' (hshift.trans (by decide)), mod_eq_of_lt hshift,
    shiftRight_eq_div_pow, UInt8.toNat_ofNat', hpow]

/-- The words of four elements, and the elements behind them. -/
theorem transposes_four {n : ℕ} (hdata : data.length = n * 4) :
    Transposes data n 4 (((range (n / 4)).flatMap fun block =>
      (range 4).flatMap fun j => (range 4).map fun k =>
        (j * n + block * 4 + k,
          (ofLe32 ((data.drop ((block * 4 + k) * 4)).take 4) >>> ofNat (8 * j)).toUInt8)) ++
      (range (n - n / 4 * 4)).flatMap fun k =>
        (range 4).map fun j => shuffleMove data n 4 (n / 4 * 4 + k) j) := by
  -- a byte taken from a word is the byte of the element
  have hword {i j : ℕ} (hi : i < n) (hj : j < 4) :
      (ofLe32 ((data.drop (i * 4)).take 4) >>> ofNat (8 * j)).toUInt8 =
        data.getD (i * 4 + j) 0 := by
    have hlen : ((data.drop (i * 4)).take 4).length = 4 := by
      rw [length_take, length_drop]
      omega
    rw [toUInt8_shiftRight_ofLe32 hlen hj, getD_eq_getElem?_getD,
      getElem?_take_of_lt hj, getElem?_drop, getD_eq_getElem?_getD]
  constructor
  · intro move hmove
    simp only [mem_append, mem_flatMap, mem_map, mem_range] at hmove
    rcases hmove with ⟨block, hblock, j, hj, k, hk, rfl⟩ | ⟨k, hk, j, hj, rfl⟩
    · have hi : block * 4 + k < n := by omega
      refine ⟨block * 4 + k, hi, j, hj, ?_⟩
      rw [hword hi hj, shuffleMove, add_assoc]
    · exact ⟨n / 4 * 4 + k, by omega, j, hj, rfl⟩
  · intro i hi j hj
    simp only [mem_append, mem_flatMap, mem_map, mem_range]
    by_cases hblock : i < n / 4 * 4
    · have hsplit : i / 4 * 4 + i % 4 = i := div_add_mod' i 4
      refine .inl ⟨i / 4, by omega, j, hj, i % 4, by omega, ?_⟩
      rw [add_assoc, hsplit, hword hi hj, shuffleMove]
    · refine .inr ⟨i - n / 4 * 4, by omega, j, hj, ?_⟩
      rw [Nat.add_sub_cancel' (by omega)]

/-- Every path of the shuffle takes the bytes to their planes. -/
theorem shuffleCompress_planes (hsize : 1 < elementSize)
    (h : shuffleCompress data elementSize = .ok result) :
    data.length = data.length / elementSize * elementSize ∧
      ∀ i < data.length / elementSize, ∀ j < elementSize,
        result[j * (data.length / elementSize) + i]? =
          some (data.getD (i * elementSize + j) 0) := by
  rw [shuffleCompress, if_neg (by omega)] at h
  by_cases hmod : data.length % elementSize = 0
  · rw [if_neg (not_not.mpr hmod)] at h
    have hlen : data.length = data.length / elementSize * elementSize :=
      (Nat.div_mul_cancel (dvd_of_mod_eq_zero hmod)).symm
    have hzeros : (replicate data.length (0 : UInt8)).length =
        elementSize * (data.length / elementSize) := by
      rw [length_replicate, mul_comm]
      exact hlen
    refine ⟨hlen, fun i hi j hj => ?_⟩
    rw [← ok.inj h]
    split_ifs with hfour
    · subst hfour
      rw [shuffleCompress4, assign, assign, ← foldl_append]
      exact (transposes_four hlen).getElem? hzeros hi hj
    · rw [shuffleCompressGeneral]
      exact (transposes_general data _ elementSize).getElem? hzeros hi hj
  · rw [if_pos hmod] at h
    cases h

theorem shuffleDecompress_shuffleCompress (h : shuffleCompress data elementSize = .ok result) :
    shuffleDecompress result elementSize = .ok data := by
  have hresult := length_shuffleCompress h
  rw [shuffleDecompress]
  by_cases hsize : elementSize ≤ 1
  · rw [shuffleCompress, if_pos hsize] at h
    rw [if_pos hsize, h]
  · obtain ⟨hlen, hplanes⟩ := shuffleCompress_planes (by omega) h
    have hmod : result.length % elementSize = 0 := by
      rw [hresult, hlen]
      exact mul_mod_left _ _
    rw [if_neg hsize, if_neg (not_not.mpr hmod), hresult]
    refine congrArg ok (ext_getElem? fun p => ?_)
    by_cases hp : p < data.length
    · -- the byte is one of an element
      have hj : p % elementSize < elementSize := mod_lt _ (by omega)
      have hi : p / elementSize < data.length / elementSize := by
        rw [div_lt_iff_lt_mul (by omega), ← hlen]
        exact hp
      have hsplit : p / elementSize * elementSize + p % elementSize = p := div_add_mod' _ _
      have hzeros : (replicate data.length (0 : UInt8)).length =
          data.length / elementSize * elementSize := length_replicate.trans hlen
      have hback := (transposes_scalar result (data.length / elementSize) elementSize).getElem?
        hzeros hj hi
      rw [hsplit] at hback
      refine hback.trans ?_
      rw [getD_eq_getElem?_getD, hplanes _ hi _ hj, hsplit, Option.getD_some,
        getD_eq_getElem?_getD, getElem?_eq_getElem hp, Option.getD_some]
    · rw [getElem?_eq_none (by rw [length_assign, length_replicate]; omega),
        getElem?_eq_none (by omega)]

/-! ### Filters that lose nothing -/

@[simp] theorem decompressed_eq_ok {label : String} {x : Except String Bytes} :
    decompressed label x = .ok result ↔ x = .ok result := by
  cases x <;> simp [decompressed, fail]

/-- The numbers that Pcodec is given have this many bytes. -/
def pcodecWidth (elementSize : ℕ) : ℕ := if elementSize = 8 then 8 else 4

/-- Decoders that decode what the encoders produce. An LZ4 block is decoded into any space that is
large enough, and not into less. -/
structure Decoders.Inverts (decoders : Decoders) (codecs : Codecs) : Prop where
  inflate {level : ℕ} {data result : Bytes} :
    codecs.deflate level data = .ok result → decoders.inflate result = .ok data
  lz4 {data : Bytes} {size : ℕ} :
    data.length ≤ size → decoders.lz4 (codecs.lz4 data) size = .ok data
  lz4_short {data : Bytes} {size : ℕ} :
    size < data.length → ∃ e, decoders.lz4 (codecs.lz4 data) size = .error e
  zstd {level : ℕ} {data result : Bytes} :
    codecs.zstd level data = .ok result → decoders.zstd result = .ok data
  pco {elementSize : ℕ} {data result : Bytes} : data.length % pcodecWidth elementSize = 0 →
    codecs.pco elementSize data = .ok result → decoders.pco elementSize result = .ok data

/-- What reaches a filter, it can encode without loss: whole numbers if it is Pcodec, and less than
`2 ^ 32` bytes if it is LZ4. -/
def StageFits (elementSize : ℕ) (f : FilterDescription) (data : Bytes) : Prop :=
  (f.filterId = filterPcodec → data.length % pcodecWidth elementSize = 0) ∧
    (f.filterId = filterLz4 → data.length < 2 ^ 32)
  deriving Decidable

section

variable {codecs : Codecs} {decoders : Decoders} {chunkSize elementSize : ℕ} {data result : Bytes}
  {f : FilterDescription}

/-- The size that stands before an LZ4 block, and the block. -/
theorem lz4Decompress_lz4Compress (codecs : Codecs) (decoders : Decoders) (data : Bytes) :
    lz4Decompress decoders (lz4Compress codecs data) =
      decompressed "lz4: " (decoders.lz4 (codecs.lz4 data) (data.length % 2 ^ 32)) := by
  have hstands : StandsAt (lz4Compress codecs data) 0 (leBytes 4 data.length) :=
    ⟨[], codecs.lz4 data, by rw [lz4Compress, nil_append], rfl⟩
  rw [lz4Decompress, leAt_of_standsAt_mod hstands, sliceFrom]
  rfl

/-- A filter is undone when what reached it fits. -/
theorem decompressFilter_compressFilter (hinverts : decoders.Inverts codecs)
    (hfits : StageFits elementSize f data)
    (h : compressFilter codecs elementSize data f = .ok result) :
    decompressFilter decoders chunkSize elementSize result f = .ok data := by
  unfold compressFilter at h
  unfold decompressFilter
  split_ifs at h ⊢ with h₁ h₂ h₃ h₄ h₅ h₆
  · exact shuffleDecompress_shuffleCompress h
  · exact decompressed_eq_ok.mpr (hinverts.inflate (compressed_eq_ok.mp h))
  · have hlt := hfits.2 h₃
    rw [← ok.inj h, lz4Decompress_lz4Compress, mod_eq_of_lt hlt]
    exact decompressed_eq_ok.mpr (hinverts.lz4 le_rfl)
  · exact decompressed_eq_ok.mpr (hinverts.zstd (compressed_eq_ok.mp h))
  · rw [← ok.inj h]
    exact fletcher32Verify_append data
  · have hwidth := hfits.1 h₆
    have hwhole : data.length / pcodecWidth elementSize * pcodecWidth elementSize = data.length :=
      Nat.div_mul_cancel (dvd_of_mod_eq_zero hwidth)
    have hpco : codecs.pco elementSize data = .ok result := by
      rw [pcodecCompress, compressed_eq_ok, ← pcodecWidth, hwhole, take_length] at h
      exact h
    exact decompressed_eq_ok.mpr (hinverts.pco hwidth hpco)
  -- the other filters cannot be applied
  all_goals cases h

end

/-- What reaches each filter of a list, it can encode without loss. -/
def Fits (codecs : Codecs) (elementSize : ℕ) : List FilterDescription → Bytes → Prop
  | [], _ => True
  | f :: filters, data => StageFits elementSize f data ∧
      ∀ result, compressFilter codecs elementSize data f = .ok result →
        Fits codecs elementSize filters result

instance Fits.decidable (codecs : Codecs) (elementSize : ℕ) :
    (filters : List FilterDescription) → (data : Bytes) →
      Decidable (Fits codecs elementSize filters data)
  | [], _ => isTrue trivial
  | f :: filters, data =>
    have : DecidablePred (Fits codecs elementSize filters) :=
      fun data => Fits.decidable codecs elementSize filters data
    inferInstanceAs (Decidable (StageFits elementSize f data ∧
      ∀ result, compressFilter codecs elementSize data f = .ok result →
        Fits codecs elementSize filters result))

/-- Filters are undone in reverse order when what reached each of them fits. -/
theorem foldlM_decompressFilter {codecs : Codecs} {decoders : Decoders}
    (hinverts : decoders.Inverts codecs) {chunkSize : ℕ} {filters : List FilterDescription}
    (hfits : Fits codecs elementSize filters data)
    (h : filters.foldlM (compressFilter codecs elementSize) data = .ok c) :
    filters.reverse.foldlM (decompressFilter decoders chunkSize elementSize) c = .ok data := by
  induction filters generalizing data with
  | nil =>
    have heq : data = c := ok.inj h
    rw [heq]
    rfl
  | cons f filters ih =>
    rw [foldlM_cons, bind_ok_iff] at h
    obtain ⟨result, hresult, hrest⟩ := h
    rw [reverse_cons, foldlM_append, ih (hfits.2 result hresult) hrest, ok_bind,
      foldlM_cons, decompressFilter_compressFilter hinverts hfits.1 hresult]
    rfl

/-! ### Filters that lose bytes -/

/-- Filters that add a checksum or nothing. -/
def KeepsLength (f : FilterDescription) : Prop :=
  f.filterId = filterShuffle ∨ f.filterId = filterFletcher32

section

variable {codecs : Codecs} {decoders : Decoders} {chunkSize elementSize : ℕ}
  {filters : List FilterDescription}
variable {data result : Bytes}

theorem length_shuffleDecompress (h : shuffleDecompress data elementSize = .ok result) :
    result.length = data.length := by
  unfold shuffleDecompress at h
  split_ifs at h
  · rw [ok.inj h]
  · cases h
  · rw [← ok.inj h, length_assign, length_replicate]

theorem length_fletcher32Verify (h : fletcher32Verify data = .ok result) :
    result.length + 4 = data.length := by
  unfold fletcher32Verify at h
  split_ifs at h with hshort
  · cases h
  · dsimp only at h
    split_ifs at h
    · cases h
    · rw [← ok.inj h, length_take]
      omega

/-- Such a filter removes what it adds, also from data it did not produce. -/
theorem KeepsLength.length_add {f : FilterDescription} (hf : KeepsLength f) {data' result' : Bytes}
    (h : compressFilter codecs elementSize data f = .ok result)
    (h' : decompressFilter decoders chunkSize elementSize result' f = .ok data') :
    data'.length + result.length = data.length + result'.length := by
  rcases hf with hf | hf
  · rw [compressFilter, if_pos hf] at h
    rw [decompressFilter, if_pos hf] at h'
    rw [length_shuffleCompress h, length_shuffleDecompress h', add_comm]
  · simp only [compressFilter, decompressFilter, hf, filterFletcher32, filterShuffle, filterDeflate,
      filterLz4, filterZstd, reduceEqDiff, if_false, if_true, ok.injEq] at h h'
    have hresult := length_fletcher32Append data
    have hverify := length_fletcher32Verify h'
    rw [h] at hresult
    omega

/-- Such filters in a row remove what they add. -/
theorem length_add_of_keepsLength (hfilters : ∀ f ∈ filters, KeepsLength f) {data' result' : Bytes}
    (h : filters.foldlM (compressFilter codecs elementSize) data = .ok result)
    (h' : filters.reverse.foldlM (decompressFilter decoders chunkSize elementSize) result' = .ok
      data') :
    data'.length + result.length = data.length + result'.length := by
  induction filters generalizing data data' with
  | nil =>
    have hdata : data = result := ok.inj h
    have hdata' : result' = data' := ok.inj h'
    rw [hdata, hdata', add_comm]
  | cons f filters ih =>
    obtain ⟨hf, hfilters⟩ := forall_mem_cons.mp hfilters
    rw [foldlM_cons, bind_ok_iff] at h
    rw [reverse_cons, foldlM_append, bind_ok_iff] at h'
    obtain ⟨mid, hmid, hrest⟩ := h
    obtain ⟨mid', hmid', hlast⟩ := h'
    rw [foldlM_cons, bind_ok_iff] at hlast
    obtain ⟨out, hout, heq⟩ := hlast
    obtain rfl : out = data' := ok.inj heq
    have hstep := hf.length_add hmid hout
    have hall := ih hfilters hrest hmid'
    omega

/-- Where something does not fit, there is a last filter that it does not fit. -/
theorem exists_last_loss (hfits : ¬Fits codecs elementSize filters data)
    (h : filters.foldlM (compressFilter codecs elementSize) data = .ok c) :
    ∃ before f after mid result, filters = before ++ f :: after ∧
      before.foldlM (compressFilter codecs elementSize) data = .ok mid ∧
      compressFilter codecs elementSize mid f = .ok result ∧
      after.foldlM (compressFilter codecs elementSize) result = .ok c ∧
      ¬StageFits elementSize f mid ∧ Fits codecs elementSize after result := by
  induction filters generalizing data with
  | nil => exact absurd trivial hfits
  | cons f filters ih =>
    rw [foldlM_cons, bind_ok_iff] at h
    obtain ⟨result, hresult, hrest⟩ := h
    by_cases hlater : Fits codecs elementSize filters result
    · refine ⟨[], f, filters, data, result, rfl, rfl, hresult, hrest, fun hstage => ?_, hlater⟩
      refine hfits ⟨hstage, fun result' hresult' => ?_⟩
      rwa [← ok.inj (hresult.symm.trans hresult')]
    · obtain ⟨before, g, after, mid, result', rfl, hbefore, hstage⟩ := ih hlater hrest
      refine ⟨f :: before, g, after, mid, result', rfl, ?_, hstage⟩
      rw [foldlM_cons, hresult, ok_bind, hbefore]

/-- Pcodec gives back what it was given whole numbers of. -/
theorem pcodecDecompress_compressFilter (hinverts : decoders.Inverts codecs) {f : FilterDescription}
    (hf : f.filterId = filterPcodec) (h : compressFilter codecs elementSize data f = .ok result) :
    decompressFilter decoders chunkSize elementSize result f =
      .ok (data.take (data.length / pcodecWidth elementSize * pcodecWidth elementSize)) := by
  simp only [compressFilter, decompressFilter, hf, filterPcodec, filterShuffle, filterDeflate,
    filterLz4, filterZstd, filterFletcher32, reduceEqDiff, if_false, if_true] at h ⊢
  rw [pcodecCompress, compressed_eq_ok] at h
  refine decompressed_eq_ok.mpr (hinverts.pco ?_ h)
  rw [length_take, min_eq_left (div_mul_le_self _ _)]
  exact mul_mod_left _ _

theorem lz4Decompress_long (hinverts : decoders.Inverts codecs) (hdata : 2 ^ 32 ≤ data.length) :
    ∃ e, lz4Decompress decoders (lz4Compress codecs data) = fail (.decompressionError e) := by
  have hmod : data.length % 2 ^ 32 < data.length := lt_of_lt_of_le (mod_lt _ (by decide)) hdata
  obtain ⟨e, he⟩ := hinverts.lz4_short hmod
  rw [lz4Decompress_lz4Compress, he]
  exact ⟨_, rfl⟩

/-- No filter before a Pcodec filter compresses. -/
def PcodecFirst (filters : List FilterDescription) : Prop :=
  ∀ before f after, filters = before ++ f :: after → f.filterId = filterPcodec →
    ∀ g ∈ before, KeepsLength g

/-- Filters that something does not fit are not undone, as far as what is cut off is not seen by
another decoder. -/
theorem ne_of_not_fits (hinverts : decoders.Inverts codecs) (hfirst : PcodecFirst filters)
    (h : filters.foldlM (compressFilter codecs elementSize) data = .ok c)
    (hfits : ¬Fits codecs elementSize filters data) :
    filters.reverse.foldlM (decompressFilter decoders chunkSize elementSize) c ≠ .ok data := by
  obtain ⟨before, f, after, mid, result, hsplit, hbefore, hresult, hafter, hstage, hlater⟩ :=
    exists_last_loss hfits h
  rw [hsplit, reverse_append, reverse_cons, append_assoc, foldlM_append,
    foldlM_decompressFilter hinverts hlater hafter, ok_bind, singleton_append, foldlM_cons]
  intro hdecode
  rw [bind_ok_iff] at hdecode
  obtain ⟨cut, hcut, hrest⟩ := hdecode
  rw [StageFits, not_and_or] at hstage
  rcases hstage with hstage | hstage
  · -- Pcodec has cut bytes off, and the filters before it do not bring them back
    obtain ⟨hf, hwidth⟩ := Classical.not_imp.mp hstage
    rw [pcodecDecompress_compressFilter hinverts hf hresult] at hcut
    have hlen := length_add_of_keepsLength (hfirst before f after hsplit hf) hbefore hrest
    rw [← ok.inj hcut, length_take] at hlen
    have hdiv := div_add_mod' mid.length (pcodecWidth elementSize)
    omega
  · -- LZ4 has stored too small a size
    obtain ⟨hf, hlong⟩ := Classical.not_imp.mp hstage
    simp only [compressFilter, decompressFilter, hf] at hresult hcut
    obtain ⟨e, he⟩ := lz4Decompress_long hinverts (not_lt.mp hlong)
    rw [← ok.inj hresult, he] at hcut
    cases hcut

end

/-- A compressed chunk is decompressed when what reaches each filter fits; and where no compressor
stands before Pcodec, only then. -/
theorem decompressChunk_compressChunk {codecs : Codecs} {decoders : Decoders}
    (hinverts : decoders.Inverts codecs) {data c : Bytes} {pipeline : FilterPipeline}
    {elementSize : ℕ} (h : compressChunk codecs data pipeline elementSize = .ok c) :
    (Fits codecs elementSize pipeline.filters data →
      decompressChunk decoders c pipeline data.length elementSize = .ok data) ∧
    (PcodecFirst pipeline.filters →
      decompressChunk decoders c pipeline data.length elementSize = .ok data →
        Fits codecs elementSize pipeline.filters data) := by
  constructor
  · intro hfits
    exact foldlM_decompressFilter hinverts hfits h
  · intro hfirst hdecode
    by_contra hfits
    exact ne_of_not_fits hinverts hfirst h hfits hdecode

/-! ### LZ4 blocks of literals -/

/-- The LZ4 block that only has literals. LZ4 produces it for data that are too short to hold a
match. -/
def literalBlock (data : Bytes) : Bytes :=
  let n := data.length
  if n < 15 then UInt8.ofNat (16 * n) :: data
  else 0xf0 :: (replicate ((n - 15) / 255) 255 ++ UInt8.ofNat ((n - 15) % 255) :: data)

/-- `n` literals into at most `size` bytes. -/
def takeLiterals (n size : ℕ) (literals : Bytes) : Except String Bytes :=
  if literals.length ≠ n then .error "literal is out of bounds of the input"
  else if size < n then .error "provided output is too small"
  else .ok literals

def readLiterals (block : Bytes) (size : ℕ) : Except String Bytes :=
  match block with
  | [] => .error "expected another byte, found none"
  | token :: rest =>
    if token.toNat / 16 < 15 then takeLiterals (token.toNat / 16) size rest
    else
      match rest.dropWhile (· == 255) with
      | [] => .error "expected another byte, found none"
      | last :: literals =>
        takeLiterals (15 + 255 * (rest.takeWhile (· == 255)).length + last.toNat) size literals

theorem readLiterals_literalBlock (data : Bytes) (size : ℕ) :
    readLiterals (literalBlock data) size = takeLiterals data.length size data := by
  rw [literalBlock]
  split_ifs with hshort
  · have htoken : (UInt8.ofNat (16 * data.length)).toNat / 16 = data.length := by
      rw [UInt8.toNat_ofNat']
      omega
    rw [readLiterals, htoken, if_pos hshort]
  · have hlast : (UInt8.ofNat ((data.length - 15) % 255)).toNat = (data.length - 15) % 255 := by
      rw [UInt8.toNat_ofNat']
      omega
    have hne : (UInt8.ofNat ((data.length - 15) % 255) == 255) = false := by
      rw [beq_eq_false_iff_ne]
      intro heq
      rw [heq] at hlast
      have h255 : (255 : UInt8).toNat = 255 := rfl
      omega
    have hall : ∀ b ∈ replicate ((data.length - 15) / 255) (255 : UInt8), (b == 255) = true :=
      fun b hb => by rw [eq_of_mem_replicate hb]; rfl
    have hdrop : (replicate ((data.length - 15) / 255) (255 : UInt8) ++
        UInt8.ofNat ((data.length - 15) % 255) :: data).dropWhile (· == 255) =
          UInt8.ofNat ((data.length - 15) % 255) :: data := by
      rw [dropWhile_append_of_pos hall, dropWhile_cons_of_neg (by rw [hne]; decide)]
    have htake : ((replicate ((data.length - 15) / 255) (255 : UInt8) ++
        UInt8.ofNat ((data.length - 15) % 255) :: data).takeWhile (· == 255)).length =
          (data.length - 15) / 255 := by
      rw [takeWhile_append_of_pos hall, takeWhile_cons_of_neg (by rw [hne]; decide),
        append_nil, length_replicate]
    have hsum : 15 + 255 * ((data.length - 15) / 255) + (data.length - 15) % 255 = data.length := by
      omega
    rw [readLiterals, if_neg (by decide)]
    simp only [hdrop, htake, hlast, hsum]

/-- Codecs of which LZ4 writes literals, Pcodec writes the numbers as they are, and the others are
switched off. -/
def literalCodecs : Codecs where
  deflate _ _ := .error "switched off"
  lz4 := literalBlock
  zstd _ _ := .error "switched off"
  pco _ data := .ok data

/-- The decoders of these codecs. -/
def literalDecoders : Decoders where
  inflate _ := .error "switched off"
  lz4 := readLiterals
  zstd _ := .error "switched off"
  pco _ data := .ok data
  aec _ _ _ _ _ _ := .error 1
  floats := FloatOps.machine

theorem literalDecoders_inverts : literalDecoders.Inverts literalCodecs where
  inflate h := nomatch h
  lz4 {data size} h := by
    refine (readLiterals_literalBlock data size).trans ?_
    rw [takeLiterals, if_neg (not_not.mpr rfl), if_neg (not_lt.mpr h)]
  lz4_short {data size} h := by
    refine ⟨"provided output is too small", (readLiterals_literalBlock data size).trans ?_⟩
    rw [takeLiterals, if_neg (not_not.mpr rfl), if_pos h]
  zstd h := nomatch h
  pco _ h := congrArg ok (ok.inj h).symm

/-- Shuffle, LZ4 and a checksum. -/
def samplePipeline : FilterPipeline :=
  ⟨2, [⟨filterShuffle, none, 0, []⟩, ⟨filterLz4, some "lz4", 0, []⟩,
    ⟨filterFletcher32, none, 0, []⟩]⟩

theorem decompressChunk_compressChunk_sample :
    decompressChunk literalDecoders
      [8, 0, 0, 0, 0x80, 1, 5, 2, 6, 3, 7, 4, 8, 10, 162, 32, 244] samplePipeline 8 4 =
      .ok [1, 2, 3, 4, 5, 6, 7, 8] :=
  (@decompressChunk_compressChunk literalCodecs literalDecoders literalDecoders_inverts
    [1, 2, 3, 4, 5, 6, 7, 8] _ samplePipeline 4 (by decide +kernel)).1 (by decide +kernel)

/-- Pcodec drops the bytes behind the last whole number. -/
theorem decompressChunk_pcodec_cut :
    literalDecoders.Inverts literalCodecs ∧
      compressChunk literalCodecs [1, 2, 3] ⟨2, [⟨filterPcodec, some "pcodec", 0, []⟩]⟩ 1 =
        .ok [] ∧
      decompressChunk literalDecoders [] ⟨2, [⟨filterPcodec, some "pcodec", 0, []⟩]⟩ 3 1 =
        .ok [] :=
  ⟨literalDecoders_inverts, by decide⟩

end ClawHdf5.Format
