import ClawHdf5.Format.FilterPipeline

/-!
# Compressing a chunk

A chunk passes through the filters of its pipeline in order. Shuffling and the Fletcher checksum
are computed here; the four compressors are third-party codecs and enter as functions.
-/

namespace ClawHdf5.Format

open Bytes Except

variable {data result : Bytes} {elementSize : ℕ}

/-- The third-party compressors: zlib streams, LZ4 blocks, Zstandard frames, and Pcodec over
numbers of `width` bytes. An error carries its message. -/
structure Codecs where
  deflate : (level : ℕ) → Bytes → Except String Bytes
  lz4 : Bytes → Bytes
  zstd : (level : ℕ) → Bytes → Except String Bytes
  pco : (elementSize : ℕ) → Bytes → Except String Bytes

/-! ### Shuffle -/

def assign (buffer : Bytes) (moves : List (ℕ × UInt8)) : Bytes :=
  moves.foldl (fun buffer move => buffer.set move.1 move.2) buffer

@[simp] theorem length_assign (buffer : Bytes) (moves : List (ℕ × UInt8)) :
    (assign buffer moves).length = buffer.length := by
  induction moves generalizing buffer with
  | nil => rfl
  | cons move moves ih => exact (ih _).trans List.length_set

/-- Byte `j` of element `i` goes to position `i` of plane `j`. -/
def shuffleMove (data : Bytes) (n elementSize i j : ℕ) : ℕ × UInt8 :=
  (j * n + i, data.getD (i * elementSize + j) 0)

/-- The elements in blocks of 64, each block plane by plane. -/
def shuffleCompressGeneral (data : Bytes) (n elementSize : ℕ) (result : Bytes) : Bytes :=
  assign result <| (List.range ((n + 63) / 64)).flatMap fun block =>
    (List.range elementSize).flatMap fun j =>
      (List.range (min (block * 64 + 64) n - block * 64)).map fun k =>
        shuffleMove data n elementSize (block * 64 + k) j

/-- Elements of four bytes: four at a time as words, and the remainder byte by byte. -/
def shuffleCompress4 (data : Bytes) (n : ℕ) (result : Bytes) : Bytes :=
  let word (i : ℕ) : UInt32 := ofLe32 ((data.drop (i * 4)).take 4)
  let words := (List.range (n / 4)).flatMap fun block =>
    (List.range 4).flatMap fun j => (List.range 4).map fun k =>
      (j * n + block * 4 + k, (word (block * 4 + k) >>> UInt32.ofNat (8 * j)).toUInt8)
  let rest := (List.range (n - n / 4 * 4)).flatMap fun k =>
    (List.range 4).map fun j => shuffleMove data n 4 (n / 4 * 4 + k) j
  assign (assign result words) rest

/-- Group the bytes of a chunk by their position in the elements. -/
def shuffleCompress (data : Bytes) (elementSize : ℕ) : Run Bytes :=
  if elementSize ≤ 1 then .ok data
  else if data.length % elementSize ≠ 0 then
    fail (.filterError "shuffle: data length not a multiple of element size")
  else
    let n := data.length / elementSize
    let result := List.replicate data.length 0
    .ok (if elementSize = 4 then shuffleCompress4 data n result
      else shuffleCompressGeneral data n elementSize result)

theorem length_shuffleCompress (h : shuffleCompress data elementSize = .ok result) :
    result.length = data.length := by
  unfold shuffleCompress at h
  split_ifs at h
  · rw [ok.inj h]
  · cases h
  all_goals
    rw [← ok.inj h]
    simp [shuffleCompress4, shuffleCompressGeneral]

/-! ### Fletcher checksum -/

/-- A 16-bit word, most significant byte first. -/
def fletcherWord (high low : UInt8) : UInt32 := high.toUInt32 <<< 8 ||| low.toUInt32

/-- The words of a block, with no reduction between them. -/
def fletcherBlock : Bytes → UInt32 × UInt32 → UInt32 × UInt32
  | high :: low :: rest, (sum1, sum2) =>
    let sum1 := sum1 + fletcherWord high low
    fletcherBlock rest (sum1, sum2 + sum1)
  | _, sums => sums

/-- The words behind the last block, reduced one by one. An odd byte is a word's upper half. -/
def fletcherTail : Bytes → UInt32 × UInt32 → UInt32 × UInt32
  | high :: low :: rest, (sum1, sum2) =>
    let sum1 := (sum1 + fletcherWord high low) % 65535
    fletcherTail rest (sum1, (sum2 + sum1) % 65535)
  | [high], (sum1, sum2) =>
    let sum1 := (sum1 + fletcherWord high 0) % 65535
    (sum1, (sum2 + sum1) % 65535)
  | [], sums => sums

/-- `n` blocks of 360 words and then what is left. -/
def fletcherSums : ℕ → Bytes → UInt32 × UInt32 → UInt32 × UInt32
  | 0, data, sums => fletcherTail data sums
  | n + 1, data, sums =>
    let (sum1, sum2) := fletcherBlock (data.take 720) sums
    fletcherSums n (data.drop 720) (sum1 % 65535, sum2 % 65535)

def fletcher32Compute (data : Bytes) : UInt32 :=
  let (sum1, sum2) := fletcherSums (data.length / 720) data (0, 0)
  sum2 <<< 16 ||| sum1

def fletcher32Append (data : Bytes) : Bytes := data ++ le32 (fletcher32Compute data)

@[simp] theorem length_fletcher32Append (data : Bytes) :
    (fletcher32Append data).length = data.length + 4 := by
  simp [fletcher32Append]

/-- Check the checksum behind the data, and remove it. -/
def fletcher32Verify (data : Bytes) : Run Bytes :=
  if data.length < 4 then fail (.filterError "fletcher32: data too short for checksum")
  else
    let payload := data.take (data.length - 4)
    let stored := ofLe32 (data.drop (data.length - 4))
    let computed := fletcher32Compute payload
    if stored ≠ computed then fail (.fletcher32Mismatch stored computed) else .ok payload

theorem fletcher32Verify_append (data : Bytes) :
    fletcher32Verify (fletcher32Append data) = .ok data := by
  have hlen := length_fletcher32Append data
  simp only [fletcher32Verify, hlen, Nat.add_sub_cancel]
  rw [if_neg (by omega), fletcher32Append, List.take_left, List.drop_left, ofLe32_le32,
    if_neg (not_not.mpr rfl)]

/-! ### Compressors -/

/-- The result of a third-party codec, with what introduces its error message. -/
def compressed (label : String) : Except String Bytes → Run Bytes
  | .ok result => .ok result
  | .error message => fail (.compressionError (label ++ message))

/-- An LZ4 block behind the size of what it encodes. -/
def lz4Compress (codecs : Codecs) (data : Bytes) : Bytes :=
  leBytes 4 data.length ++ codecs.lz4 data

/-- Whole numbers through Pcodec: floats of four or eight bytes, and else 32-bit integers. -/
def pcodecCompress (codecs : Codecs) (data : Bytes) (elementSize : ℕ) : Run Bytes :=
  let width := if elementSize = 8 then 8 else 4
  compressed "pco: " (codecs.pco elementSize (data.take (data.length / width * width)))

def compressFilter (codecs : Codecs) (elementSize : ℕ) (data : Bytes) (f : FilterDescription) :
    Run Bytes :=
  if f.filterId = filterShuffle then shuffleCompress data elementSize
  else if f.filterId = filterDeflate then
    compressed "" (codecs.deflate (f.clientData.head?.getD 6) data)
  else if f.filterId = filterLz4 then .ok (lz4Compress codecs data)
  else if f.filterId = filterZstd then
    compressed "zstd: " (codecs.zstd (f.clientData.head?.getD 3) data)
  else if f.filterId = filterFletcher32 then .ok (fletcher32Append data)
  else if f.filterId = filterPcodec then pcodecCompress codecs data elementSize
  else fail (.unsupportedFilter f.filterId)

def compressChunk (codecs : Codecs) (data : Bytes) (pipeline : FilterPipeline)
    (elementSize : ℕ) : Run Bytes :=
  pipeline.filters.foldlM (compressFilter codecs elementSize) data

/-! ### Sizes -/

/-- How large the output of a codec is at most. -/
def codecBound (n : ℕ) : ℕ := 128 * n + 32000

/-- Codecs that do not blow their input up. Every real compressor stays far below this bound. -/
structure Codecs.Moderate (codecs : Codecs) : Prop where
  deflate {level : ℕ} {data result : Bytes} :
    codecs.deflate level data = .ok result → result.length ≤ codecBound data.length
  lz4 (data : Bytes) : (codecs.lz4 data).length ≤ codecBound data.length
  zstd {level : ℕ} {data result : Bytes} :
    codecs.zstd level data = .ok result → result.length ≤ codecBound data.length
  pco {elementSize : ℕ} {data result : Bytes} :
    codecs.pco elementSize data = .ok result → result.length ≤ codecBound data.length

@[simp] theorem compressed_eq_ok {label : String} {x : Except String Bytes} :
    compressed label x = .ok result ↔ x = .ok result := by
  cases x <;> simp [compressed, fail]

/-- A filter that does not compress adds at most a checksum. -/
theorem length_compressFilter_le_add {codecs : Codecs} {f : FilterDescription}
    (hf : f.filterId = filterShuffle ∨ f.filterId = filterFletcher32)
    (h : compressFilter codecs elementSize data f = .ok result) :
    result.length ≤ data.length + 4 := by
  rcases hf with hf | hf
  · rw [compressFilter, if_pos hf] at h
    rw [length_shuffleCompress h]
    omega
  · simp only [compressFilter, hf, filterFletcher32, filterShuffle, filterDeflate, filterLz4,
      filterZstd, Nat.reduceEqDiff, if_false, if_true, ok.injEq] at h
    rw [← h, length_fletcher32Append]

/-- A filter's output is bounded by its codec's. -/
theorem length_compressFilter_le {codecs : Codecs} (hcodecs : codecs.Moderate)
    {f : FilterDescription} (h : compressFilter codecs elementSize data f = .ok result) :
    result.length ≤ codecBound data.length + 4 := by
  unfold compressFilter at h
  split_ifs at h
  · rw [length_shuffleCompress h, codecBound]
    omega
  · exact (hcodecs.deflate (compressed_eq_ok.mp h)).trans le_self_add
  · rw [← ok.inj h, lz4Compress, List.length_append, add_comm]
    exact Nat.add_le_add_right (hcodecs.lz4 data) 4
  · exact (hcodecs.zstd (compressed_eq_ok.mp h)).trans le_self_add
  · rw [← ok.inj h, length_fletcher32Append, codecBound]
    omega
  · have hle := hcodecs.pco (compressed_eq_ok.mp h)
    rw [List.length_take, codecBound] at hle
    rw [codecBound]
    omega
  · cases h

end ClawHdf5.Format
