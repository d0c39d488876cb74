import Mathlib.Algebra.BigOperators.Ring.List
import Mathlib.Data.UInt
import ClawHdf5.Math.PanicFree
import ClawHdf5.Subset.VerificationGrid

/-!
# Trees over contiguous datasets

The tree over a contiguous dataset is built from the whole byte stream in memory, or from a reader.
The streaming path groups the leaves into batches of at most a budget, reads each batch with one
sequential read and cuts it into leaves again. A producer reads while a consumer hashes; the channel
between them keeps the order of the batches.
-/

namespace ClawHdf5.Subset

open Fallible MachineInt Merkle List UInt64 ChunkGridParams

variable {ε : Type}

inductive StreamError
  | unexpectedEof
  deriving DecidableEq

/-- Slice access. Bounds past the end or in the wrong order panic. -/
def sliceBytes (data : Bytes) (range : UInt64 × UInt64) : Except (Halt ε) Bytes :=
  if range.1.toNat ≤ range.2.toNat ∧ range.2.toNat ≤ data.length then
    .ok ((data.drop range.1.toNat).take (range.2.toNat - range.1.toNat))
  else .error .panic

/-- The grid that is laid over a contiguous dataset. -/
def contiguousGrid (H : Hashers) (dims : List UInt64) (elemSize : UInt32) (targetBytes : UInt64)
    (alg : HashAlg) : ChunkGridParams :=
  .new H dims (tileShape dims elemSize targetBytes) elemSize .contiguous alg

theorem chunkShape_contiguousGrid (H : Hashers) (dims : List UInt64) (elemSize : UInt32)
    (targetBytes : UInt64) (alg : HashAlg) :
    (contiguousGrid H dims elemSize targetBytes alg).chunkShape =
      tileShape dims elemSize targetBytes := rfl

/-- The bytes of a range in memory, and of a reference to a slice. -/
def rangeSize : ℕ := 16

/-- The tree over leaf hashes. Its nodes are allocated at once, which panics from `2 ^ 63` bytes
on. -/
def allocateTree (H : Hashers) (leafHashes : List Hash) (alg : HashAlg) :
    Except (Halt ε) MerkleTree := do
  let tree := MerkleTree.fromLeafHashes H leafHashes alg
  reject (2 ^ 63 ≤ (2 * tree.paddedCount - 1) * hashSize) .panic
  .ok tree

def contiguousTreeAndGrid (H : Hashers) (data : Bytes) (dims : List UInt64) (elemSize : UInt32)
    (targetBytes : UInt64) (alg : HashAlg) : Except (Halt ε) (MerkleTree × ChunkGridParams) := do
  let grid := contiguousGrid H dims elemSize targetBytes alg
  reject (2 ^ 63 ≤ grid.totalChunkCount.toNat * rangeSize) .panic
  let leaves ← (range grid.totalChunkCount.toNat).mapM fun idx => do
    let range ← leafByteRange grid.chunkShape dims elemSize (UInt64.ofNat idx)
    sliceBytes data range
  reject (2 ^ 63 ≤ leaves.length * hashSize) .panic
  let tree ← allocateTree H (leaves.map fun leaf => alg.hashLeaf H leaf) alg
  .ok (tree, grid)

/-! ### Streaming -/

/-- The bytes that are read at once. -/
def streamBudgetBytes : ℕ := 64 * 1024 * 1024

/-- Leaves that are read together, at least one. -/
structure Batch where
  first : UInt64 × UInt64
  rest : List (UInt64 × UInt64)

namespace Batch

/-- The leaves of a batch. -/
def ranges (batch : Batch) : List (UInt64 × UInt64) := batch.first :: batch.rest

/-- Where a batch starts in the stream. -/
def base (batch : Batch) : UInt64 := batch.first.1

/-- The length of a batch. -/
def span (batch : Batch) : UInt64 := (batch.rest.getLastD batch.first).2 - batch.base

end Batch

/-- Whether a leaf ends within the budget of a batch that starts at `base`. -/
def fits (base : UInt64) (range : UInt64 × UInt64) : Bool :=
  (range.2 - base).toNat ≤ streamBudgetBytes

/-- The leaves that are read together with a first one. If that is larger than the budget it is
read alone. -/
def joined (first : UInt64 × UInt64) (rest : List (UInt64 × UInt64)) : List (UInt64 × UInt64) :=
  if fits first.1 first then rest.takeWhile (fits first.1) else []

/-- Fill each batch up to the budget. -/
def batches : List (UInt64 × UInt64) → List Batch
  | [] => []
  | first :: rest => ⟨first, joined first rest⟩ :: batches (rest.drop (joined first rest).length)
  termination_by ranges => ranges.length
  decreasing_by
    rw [length_drop, List.length_cons]
    omega

/-- The messages of the producer: one buffer for each batch, up to the first read that fails. A
buffer of `2 ^ 63` bytes panics, and once all messages are taken the panic is passed on. -/
def produce : Bytes → List Batch → List (Except (Halt StreamError) (Bytes × Batch))
  | _, [] => []
  | stream, batch :: rest =>
    if 2 ^ 63 ≤ batch.span.toNat then [.error .panic]
    else if batch.span.toNat ≤ stream.length then
      .ok (stream.take batch.span.toNat, batch) :: produce (stream.drop batch.span.toNat) rest
    else [.error (.error .unexpectedEof)]

/-- The leaf hashes of the consumer, from the messages in the order they were sent. -/
def consume (H : Hashers) (alg : HashAlg) :
    List (Except (Halt StreamError) (Bytes × Batch)) → Except (Halt StreamError) (List Hash)
  | [] => .ok []
  | .error halt :: _ => .error halt
  | .ok (buf, batch) :: rest => do
    let slices ← batch.ranges.mapM fun range =>
      sliceBytes buf (range.1 - batch.base, range.2 - batch.base)
    let hashes ← consume H alg rest
    .ok (slices.map (fun slice => alg.hashLeaf H slice) ++ hashes)

/-- The tree and the grid of a contiguous dataset that is read from a stream. -/
def contiguousTreeStreaming (H : Hashers) (stream : Bytes) (dims : List UInt64)
    (elemSize : UInt32) (targetBytes : UInt64) (alg : HashAlg) :
    Except (Halt StreamError) (MerkleTree × ChunkGridParams) := do
  let grid := contiguousGrid H dims elemSize targetBytes alg
  reject (2 ^ 63 ≤ grid.totalChunkCount.toNat * rangeSize) .panic
  let ranges ← (range grid.totalChunkCount.toNat).mapM fun idx =>
    leafByteRange grid.chunkShape dims elemSize (UInt64.ofNat idx)
  reject (2 ^ 63 ≤ ranges.length * hashSize) .panic
  let leafHashes ← consume H alg (produce stream (batches ranges))
  let tree ← allocateTree H leafHashes alg
  .ok (tree, grid)

/-- Up to `2 ^ 57` leaves there can be room for the nodes. -/
theorem allocateTree_eq (H : Hashers) (leafHashes : List Hash) (alg : HashAlg) :
    (allocateTree H leafHashes alg : Except (Halt ε) _) =
      if leafHashes.length ≤ 2 ^ 57 then .ok (MerkleTree.fromLeafHashes H leafHashes alg)
      else .error .panic := by
  have hle := le_nextPowerOfTwo leafHashes.length
  unfold allocateTree
  dsimp only
  rw [fromLeafHashes_paddedCount, hashSize]
  split_ifs with hlen
  · have hpadded := nextPowerOfTwo_le hlen
    exact reject_bind (by omega) _
  · exact reject_bind_of (by omega) _

/-! ### Ranges that follow each other -/

/-- Ranges that lead from one position to another without gap or overlap. -/
inductive Chained : ℕ → List (UInt64 × UInt64) → ℕ → Prop
  | nil (p : ℕ) : Chained p [] p
  | cons {range : UInt64 × UInt64} {ranges : List (UInt64 × UInt64)} {q : ℕ}
      (hle : range.1.toNat ≤ range.2.toNat) (hrest : Chained range.2.toNat ranges q) :
      Chained range.1.toNat (range :: ranges) q

namespace Chained

variable {p q m : ℕ} {range : UInt64 × UInt64} {ranges xs ys : List (UInt64 × UInt64)}

theorem le (h : Chained p ranges q) : p ≤ q := by
  induction h with
  | nil p => exact le_rfl
  | cons hle _ ih => exact hle.trans ih

theorem append (hx : Chained p xs m) (hy : Chained m ys q) : Chained p (xs ++ ys) q := by
  induction hx with
  | nil p => exact hy
  | cons hle _ ih => exact .cons hle (ih hy)

theorem split (h : Chained p (xs ++ ys) q) : ∃ m, Chained p xs m ∧ Chained m ys q := by
  induction xs generalizing p with
  | nil => exact ⟨p, .nil p, h⟩
  | cons x xs ih =>
    cases h with
    | cons hle hrest =>
      obtain ⟨m, hxs, hys⟩ := ih hrest
      exact ⟨m, .cons hle hxs, hys⟩

theorem mem_bounds (h : Chained p ranges q) (hmem : range ∈ ranges) :
    p ≤ range.1.toNat ∧ range.1.toNat ≤ range.2.toNat ∧ range.2.toNat ≤ q := by
  induction h with
  | nil p => exact absurd hmem not_mem_nil
  | cons hle hrest ih =>
    rcases mem_cons.mp hmem with rfl | hmem
    · exact ⟨le_rfl, hle, hrest.le⟩
    · obtain ⟨hstart, hrange, hend⟩ := ih hmem
      exact ⟨hle.trans hstart, hrange, hend⟩

theorem getLastD_snd (h : Chained p ranges q) (first : UInt64 × UInt64)
    (hfirst : first.2.toNat = p) : (ranges.getLastD first).2.toNat = q := by
  induction h generalizing first with
  | nil p => exact hfirst
  | @cons range ranges q hle hrest ih =>
    rw [getLastD_cons]
    exact ih range rfl

theorem of_boundaries {w : ℕ → UInt64} {n : ℕ} (h : ∀ i < n, (w i).toNat ≤ (w (i + 1)).toNat) :
    Chained (w 0).toNat ((List.range n).map fun i => (w i, w (i + 1))) (w n).toNat := by
  induction n with
  | zero => exact .nil _
  | succ n ih =>
    rw [range_succ, map_append]
    refine (ih fun i hi => h i (Nat.lt_succ_of_lt hi)).append ?_
    exact @Chained.cons (w n, w (n + 1)) [] _ (h n (Nat.lt_succ_self n)) (.nil _)

end Chained

/-! ### What the consumer hashes -/

/-- The bytes of a range, in a stream that has been read up to position `p`. -/
def leafAt (stream : Bytes) (p : ℕ) (range : UInt64 × UInt64) : Bytes :=
  (stream.drop (range.1.toNat - p)).take (range.2.toNat - range.1.toNat)

theorem leafAt_drop {stream : Bytes} {p m : ℕ} {range : UInt64 × UInt64} (hp : p ≤ m)
    (hm : m ≤ range.1.toNat) : leafAt (stream.drop (m - p)) m range = leafAt stream p range := by
  rw [leafAt, drop_drop]
  congr 2
  omega

section

variable {H : Hashers} {alg : HashAlg} {p q : ℕ} {ranges : List (UInt64 × UInt64)}

/-- The span of a batch is the distance from its first byte to its end. -/
theorem Batch.toNat_span {batch : Batch} (h : Chained p batch.ranges q) :
    batch.base.toNat = p ∧ batch.span.toNat = q - p := by
  obtain ⟨first, rest⟩ := batch
  cases h with
  | cons hle hrest =>
    have hlast := hrest.getLastD_snd first rfl
    have hword : first.1 ≤ (rest.getLastD first).2 := by
      rw [le_iff_toNat_le, hlast]
      exact hle.trans hrest.le
    refine ⟨rfl, ?_⟩
    rw [Batch.span, Batch.base, UInt64.toNat_sub_of_le _ _ hword, hlast]

/-- A batch is as short as its leaves: more than one are read together within the budget only. -/
theorem Batch.span_lt {first : UInt64 × UInt64} {rest : List (UInt64 × UInt64)}
    (h : Chained p (⟨first, joined first rest⟩ : Batch).ranges q)
    (hfirst : first.2.toNat - first.1.toNat < 2 ^ 63) :
    (⟨first, joined first rest⟩ : Batch).span.toNat < 2 ^ 63 := by
  by_cases hfits : fits first.1 first = true
  · have hbudget : fits first.1 ((joined first rest).getLastD first) = true := by
      rcases mem_cons.mp (@getLastD_mem_cons _ (joined first rest) first) with heq | hmem
      · rwa [heq]
      · rw [joined, if_pos hfits] at hmem ⊢
        exact all_eq_true.mp all_takeWhile _ hmem
    have hle := of_decide_eq_true hbudget
    unfold streamBudgetBytes at hle
    exact lt_of_le_of_lt hle (by decide)
  · rw [joined, if_neg hfits] at h ⊢
    cases h with
    | cons hle _ =>
      rw [Batch.span, Batch.base, getLastD_nil, UInt64.toNat_sub_of_le _ _ hle]
      exact hfirst

/-- A batch that was read whole is cut into its leaves. -/
theorem mapM_sliceBytes_batch {batch : Batch} (h : Chained p batch.ranges q) {stream : Bytes}
    (hread : q - p ≤ stream.length) :
    (batch.ranges.mapM fun range => (sliceBytes (stream.take (q - p))
        (range.1 - batch.base, range.2 - batch.base) : Except (Halt ε) _)) =
      .ok (batch.ranges.map (leafAt stream p)) := by
  obtain ⟨hbase, -⟩ := Batch.toNat_span h
  refine mapM_eq fun range hmem => ?_
  obtain ⟨hstart, hle, hend⟩ := h.mem_bounds hmem
  have hfirst : (range.1 - batch.base).toNat = range.1.toNat - p := by
    rw [UInt64.toNat_sub_of_le _ _ (by rwa [le_iff_toNat_le, hbase]), hbase]
  have hlast : (range.2 - batch.base).toNat = range.2.toNat - p := by
    rw [UInt64.toNat_sub_of_le _ _ (by rw [le_iff_toNat_le]; omega), hbase]
  have hlen : (stream.take (q - p)).length = q - p := by
    rw [length_take]
    omega
  unfold sliceBytes
  rw [hfirst, hlast, if_pos (by omega), drop_take, take_take]
  congr 2
  omega

theorem ranges_append_drop (first : UInt64 × UInt64) (rest : List (UInt64 × UInt64)) :
    first :: rest = (⟨first, joined first rest⟩ : Batch).ranges ++
      rest.drop (joined first rest).length := by
  have hjoined : joined first rest <+: rest := by
    unfold joined
    split_ifs
    · exact takeWhile_prefix _
    · exact nil_prefix
  rw [Batch.ranges, cons_append, prefix_iff_eq_append.mp hjoined]

/-- The messages for a chain of ranges yield the hashes of its leaves, or the end of the stream if
that comes first. -/
theorem consume_produce (h : Chained p ranges q)
    (hsmall : ∀ range ∈ ranges, range.2.toNat - range.1.toNat < 2 ^ 63) (stream : Bytes) :
    consume H alg (produce stream (batches ranges)) =
      if q - p ≤ stream.length then
        .ok (ranges.map fun range => alg.hashLeaf H (leafAt stream p range))
      else .error (.error .unexpectedEof) := by
  induction ranges using batches.induct generalizing p stream with
  | case1 =>
    cases h
    rw [batches, produce, consume, Nat.sub_self, if_pos zero_le, map_nil]
  | case2 first rest ih =>
    have hsplit := ranges_append_drop first rest
    rw [hsplit] at h
    obtain ⟨m, hbatch, hrest⟩ := h.split
    obtain ⟨-, hspan⟩ := Batch.toNat_span hbatch
    have hpm := hbatch.le
    have hmq := hrest.le
    have hlt := Batch.span_lt hbatch (hsmall first mem_cons_self)
    have hbehind := fun range (hmem : range ∈ rest.drop (joined first rest).length) =>
      hsmall range (mem_cons_of_mem _ (mem_of_mem_drop hmem))
    rw [batches, produce, if_neg hlt.not_ge, hspan]
    by_cases hread : m - p ≤ stream.length
    · rw [if_pos hread, consume, mapM_sliceBytes_batch hbatch hread, ih hrest hbehind, length_drop]
      by_cases hall : q - p ≤ stream.length
      · -- the leaves behind the batch are read from what is left of the stream
        have hleaves : (rest.drop (joined first rest).length).map
              (fun range => alg.hashLeaf H (leafAt (stream.drop (m - p)) m range)) =
            (rest.drop (joined first rest).length).map
              (fun range => alg.hashLeaf H (leafAt stream p range)) := by
          refine map_congr_left fun range hmem => ?_
          rw [leafAt_drop hpm (hrest.mem_bounds hmem).1]
        rw [if_pos (by omega), if_pos hall, ok_bind, hleaves, map_map, hsplit, map_append]
        rfl
      · rw [if_neg (by omega), if_neg hall]
        rfl
    · rw [if_neg hread, if_neg (by omega)]
      rfl

/-- Leaves that were hashed were read into buffers. -/
theorem small_of_consume (h : Chained p ranges q) {stream : Bytes} {hashes : List Hash}
    (hrun : consume H alg (produce stream (batches ranges)) = .ok hashes) :
    ∀ range ∈ ranges, range.2.toNat - range.1.toNat < 2 ^ 63 := by
  induction ranges using batches.induct generalizing p stream hashes with
  | case1 => exact nofun
  | case2 first rest ih =>
    rw [ranges_append_drop first rest] at h ⊢
    obtain ⟨m, hbatch, hrest⟩ := h.split
    obtain ⟨-, hspan⟩ := Batch.toNat_span hbatch
    rw [batches, produce, hspan] at hrun
    split_ifs at hrun with hlarge hread
    · cases hrun
    · obtain ⟨slices, -, hrun⟩ := bind_ok_iff.mp hrun
      obtain ⟨hashes', hrun, -⟩ := bind_ok_iff.mp hrun
      refine forall_mem_append.mpr ⟨fun range hmem => ?_, ih hrest hrun⟩
      have hbounds := hbatch.mem_bounds hmem
      omega
    · cases hrun

end

/-! ### The leaves of a dataset as a chain -/

theorem length_tileShape (dims : List UInt64) (elemSize : UInt32) (targetBytes : UInt64) :
    (tileShape dims elemSize targetBytes).length = dims.length := by
  unfold tileShape
  cases hgrid : verificationGrid dims elemSize targetBytes with
  | none => rfl
  | some grid =>
    obtain ⟨-, hsplit⟩ := verificationGrid_eq_some hgrid
    obtain ⟨taken, n, slower, size, haxes, -, rfl, -, -⟩ := splitAxis_eq_some hsplit
    have hlen := congrArg length haxes
    simp only [length_reverse, length_append, length_cons] at hlen
    simp only [Option.getD_some, length_append, length_map, length_cons, length_reverse, append_nil]
    omega

theorem Pivoted.zero_notMem {dims grid : List UInt64} (h : Pivoted dims grid) (hpos : 0 ∉ dims) :
    0 ∉ grid := by
  obtain ⟨slower, n, faster, t, rfl, rfl, htpos, -⟩ := h
  simp only [mem_append, mem_cons, not_or] at hpos
  simp only [mem_append, mem_map, mem_cons, not_or]
  refine ⟨fun h1 => absurd h1.choose_spec.2 (by decide), fun h0 => ?_, hpos.2.2⟩
  rw [← h0] at htpos
  exact lt_irrefl 0 htpos

section

variable (H : Hashers) {dims : List UInt64} (elemSize : UInt32) (targetBytes : UInt64)
  (alg : HashAlg)

theorem toNat_totalChunkCount_contiguous (hdims : dims ≠ []) (hpos : 0 ∉ dims) :
    (contiguousGrid H dims elemSize targetBytes alg).totalChunkCount.toNat =
      elements (nTiles (tileShape dims elemSize targetBytes) dims) % 2 ^ 64 := by
  have hzero := (tileShape_pivoted hdims hpos elemSize targetBytes).zero_notMem hpos
  have hcounts : (contiguousGrid H dims elemSize targetBytes alg).nChunksPerDim =
      nTiles (tileShape dims elemSize targetBytes) dims := by
    unfold nChunksPerDim nTiles
    rw [← map_uncurry_zip_eq_zipWith, ← map_uncurry_zip_eq_zipWith]
    refine map_congr_left fun axis haxis => ?_
    have hne : axis.2 ≠ 0 := fun h0 => hzero (h0 ▸ (of_mem_zip haxis).2)
    rw [Function.uncurry, Function.uncurry, if_neg hne, max_one_of_ne_zero hne]
  rw [totalChunkCount, toNat_foldl_mul, toNat_one, Nat.one_mul, hcounts]
  rfl

/-- A dataset without elements has no leaves. -/
theorem toNat_totalChunkCount_empty (hzero : 0 ∈ dims) :
    (contiguousGrid H dims elemSize targetBytes alg).totalChunkCount.toNat = 0 := by
  have hmem : 0 ∈ (contiguousGrid H dims elemSize targetBytes alg).nChunksPerDim := by
    obtain ⟨i, hi, hget⟩ := getElem_of_mem hzero
    have hi' : i < (tileShape dims elemSize targetBytes).length := by rwa [length_tileShape]
    have hlen : i < (contiguousGrid H dims elemSize targetBytes alg).nChunksPerDim.length := by
      rw [nChunksPerDim, length_zipWith]
      exact lt_min hi hi'
    have hentry : (contiguousGrid H dims elemSize targetBytes alg).nChunksPerDim[i] = 0 := by
      simp only [nChunksPerDim, getElem_zipWith]
      change (if _ then _ else divCeil dims[i] _) = _
      rw [hget, divCeil, UInt64.zero_mod, if_pos rfl, UInt64.zero_div, ite_self]
    exact hentry ▸ getElem_mem hlen
  have hprod : ((contiguousGrid H dims elemSize targetBytes alg).nChunksPerDim.map
      toNat).prod = 0 := prod_eq_zero (mem_map.mpr ⟨0, hmem, rfl⟩)
  rw [totalChunkCount, toNat_foldl_mul, hprod, Nat.mul_zero, Nat.zero_mod]

/-- The leaves of a dataset lie between boundaries in the stream. As long as the size of the dataset
fits a word, the last of them is its end. -/
theorem leafRanges_spec : ∃ b : ℕ → ℕ, Monotone b ∧ b 0 = 0 ∧
      (∀ idx < (contiguousGrid H dims elemSize targetBytes alg).totalChunkCount.toNat,
        (leafByteRange (tileShape dims elemSize targetBytes) dims elemSize (ofNat idx) :
          Except (Halt ε) _) = .ok (ofNat (b idx), ofNat (b (idx + 1)))) ∧
      (elemSize.toNat * elements dims < 2 ^ 64 →
        b (contiguousGrid H dims elemSize targetBytes alg).totalChunkCount.toNat =
          elemSize.toNat * elements dims) := by
  by_cases hdims : dims = []
  · -- a scalar is one leaf
    subst hdims
    refine ⟨fun i => elemSize.toNat * i, fun i j hij => Nat.mul_le_mul_left _ hij, mul_zero _,
      fun idx hidx => ?_, fun _ => rfl⟩
    obtain rfl : idx = 0 := Nat.lt_one_iff.mp hidx
    change Except.ok (ofNat (wrap128 (0 * elemSize.toNat)), ofNat (wrap128 (0 * elemSize.toNat)) +
        ofNat (wrap128 (1 * elemSize.toNat))) = _
    rw [ofNat_wrap128, ofNat_wrap128, ← ofNat_add]
    congr 3 <;> ring
  by_cases hzero : 0 ∈ dims
  · have hcount := toNat_totalChunkCount_empty H elemSize targetBytes alg hzero
    refine ⟨fun _ => 0, fun _ _ _ => le_rfl, rfl, fun idx hidx => ?_, fun _ => ?_⟩
    · omega
    · have hprod : elements dims = 0 := prod_eq_zero (mem_map.mpr ⟨0, hzero, rfl⟩)
      rw [hprod, Nat.mul_zero]
  · obtain ⟨b, hmono, hfirst, hlast, -, hrange⟩ :=
      (tileShape_pivoted hdims hzero elemSize targetBytes).exists_boundaries (ε := ε) hzero elemSize
    have hcount := toNat_totalChunkCount_contiguous H elemSize targetBytes alg hdims hzero
    refine ⟨fun i => elemSize.toNat * b i,
      fun i j hij => Nat.mul_le_mul_left _ (hmono.monotone hij), ?_, fun idx hidx => ?_,
      fun hfits => ?_⟩
    · exact congrArg (elemSize.toNat * ·) hfirst
    · have hlt : idx < 2 ^ 64 := hidx.trans (toNat_lt _)
      have hword := toNat_ofNat_of_lt' hlt
      have hleaf := hrange (ofNat idx) (by
        rw [hword]
        exact hidx.trans_le (hcount.trans_le (Nat.mod_le _ _)))
      rwa [hword] at hleaf
    · dsimp only
      by_cases helem : elemSize.toNat = 0
      · rw [helem, Nat.zero_mul, Nat.zero_mul]
      · -- there are not more leaves than elements
        have hle : elements (nTiles (tileShape dims elemSize targetBytes) dims) ≤
            elements dims := by
          conv_rhs => rw [← hlast]
          exact hmono.le_apply
        have hcells := Nat.le_mul_of_pos_left (elements dims) (pos_of_ne_zero helem)
        rw [hcount, Nat.mod_eq_of_lt (by omega), hlast]

end

/-! ### Streaming against memory -/

section

variable {H : Hashers} {dims : List UInt64} {elemSize : UInt32} {targetBytes : UInt64}
  {alg : HashAlg} {b : ℕ → ℕ} {n q : ℕ}

def rangesBetween (b : ℕ → ℕ) (n : ℕ) : List (UInt64 × UInt64) :=
  (range n).map fun idx => (UInt64.ofNat (b idx), UInt64.ofNat (b (idx + 1)))

theorem length_rangesBetween : (rangesBetween b n).length = n := by
  rw [rangesBetween, length_map, length_range]

theorem chained_rangesBetween (hzero : b 0 = 0)
    (h : ∀ idx < n, (ofNat (b idx)).toNat ≤ (ofNat (b (idx + 1))).toNat) :
    Chained 0 (rangesBetween b n) (ofNat (b n)).toNat := by
  have hchain := Chained.of_boundaries (w := fun i => ofNat (b i)) h
  rwa [hzero] at hchain

variable (hn : (contiguousGrid H dims elemSize targetBytes alg).totalChunkCount.toNat = n)
  (hrange : ∀ idx < n,
    (leafByteRange (tileShape dims elemSize targetBytes) dims elemSize (UInt64.ofNat idx) :
      Except (Halt StreamError) _) = .ok (UInt64.ofNat (b idx), UInt64.ofNat (b (idx + 1))))

include hn hrange

omit hn in
theorem mapM_leafByteRange : ((range n).mapM fun idx =>
    (leafByteRange (tileShape dims elemSize targetBytes) dims elemSize (ofNat idx) :
      Except (Halt StreamError) _)) = .ok (rangesBetween b n) :=
  mapM_eq fun idx hidx => hrange idx (mem_range.mp hidx)

/-- Streaming a dataset whose leaves form a chain, with room for them. -/
theorem contiguousTreeStreaming_of_chained (hcount : n ≤ 2 ^ 57)
    (hchain : Chained 0 (rangesBetween b n) q)
    (hsmall : ∀ range ∈ rangesBetween b n, range.2.toNat - range.1.toNat < 2 ^ 63)
    (stream : Bytes) :
    contiguousTreeStreaming H stream dims elemSize targetBytes alg =
      if q ≤ stream.length then
        .ok (MerkleTree.fromChunks H ((rangesBetween b n).map (leafAt stream 0)) alg,
          contiguousGrid H dims elemSize targetBytes alg)
      else .error (.error .unexpectedEof) := by
  unfold contiguousTreeStreaming
  dsimp only
  rw [hn, chunkShape_contiguousGrid, reject_bind (by unfold rangeSize; omega),
    mapM_leafByteRange hrange, ok_bind, length_rangesBetween,
    reject_bind (by unfold hashSize; omega), consume_produce hchain hsmall, Nat.sub_zero]
  split_ifs
  · rw [ok_bind, allocateTree_eq, length_map, length_rangesBetween, if_pos hcount,
      MerkleTree.fromChunks, map_map]
    rfl
  · rfl

/-- A dataset that was streamed had room for its leaves. -/
theorem room_of_contiguousTreeStreaming (hchain : Chained 0 (rangesBetween b n) q)
    {stream : Bytes} {result : MerkleTree × ChunkGridParams}
    (h : contiguousTreeStreaming H stream dims elemSize targetBytes alg = .ok result) :
    n ≤ 2 ^ 57 ∧ ∀ range ∈ rangesBetween b n, range.2.toNat - range.1.toNat < 2 ^ 63 := by
  unfold contiguousTreeStreaming at h
  dsimp only at h
  rw [hn, chunkShape_contiguousGrid, mapM_leafByteRange hrange] at h
  obtain ⟨-, -, h⟩ := bind_ok_iff.mp h
  rw [ok_bind] at h
  obtain ⟨-, -, h⟩ := bind_ok_iff.mp h
  obtain ⟨hashes, hhashes, h⟩ := bind_ok_iff.mp h
  have hsmall := small_of_consume hchain hhashes
  rw [consume_produce hchain hsmall] at hhashes
  split_ifs at hhashes
  obtain ⟨tree, htree, -⟩ := bind_ok_iff.mp h
  rw [allocateTree_eq, ← Except.ok.inj hhashes, length_map, length_rangesBetween] at htree
  split_ifs at htree with hcount
  exact ⟨hcount, hsmall⟩

/-- Hashing in memory a dataset whose leaves form a chain. -/
theorem contiguousTreeAndGrid_of_chained (hcount : n ≤ 2 ^ 57)
    (hchain : Chained 0 (rangesBetween b n) q) {data : Bytes} (hdata : q ≤ data.length) :
    (contiguousTreeAndGrid H data dims elemSize targetBytes alg : Except (Halt StreamError) _) =
      .ok (MerkleTree.fromChunks H ((rangesBetween b n).map (leafAt data 0)) alg,
        contiguousGrid H dims elemSize targetBytes alg) := by
  have hleaves : ((range n).mapM fun idx => do
      let range ← leafByteRange (tileShape dims elemSize targetBytes) dims elemSize (ofNat idx)
      (sliceBytes data range : Except (Halt StreamError) _)) =
      .ok ((rangesBetween b n).map (leafAt data 0)) := by
    rw [rangesBetween, map_map]
    refine mapM_eq fun idx hidx => ?_
    have hbounds := hchain.mem_bounds (mem_map_of_mem hidx)
    rw [hrange idx (mem_range.mp hidx)]
    exact if_pos ⟨hbounds.2.1, hbounds.2.2.trans hdata⟩
  unfold contiguousTreeAndGrid
  dsimp only
  rw [hn, chunkShape_contiguousGrid, reject_bind (by unfold rangeSize; omega), hleaves, ok_bind,
    length_map, length_rangesBetween, reject_bind (by unfold hashSize; omega), allocateTree_eq,
    length_map, length_map, length_rangesBetween, if_pos hcount]
  rfl

/-- In memory, no slice of a leaf is taken whose bounds are in the wrong order. -/
theorem boundary_le_of_contiguousTreeAndGrid {data : Bytes} {result : MerkleTree × ChunkGridParams}
    (h : (contiguousTreeAndGrid H data dims elemSize targetBytes alg :
      Except (Halt StreamError) _) = .ok result) :
    ∀ idx < n, (ofNat (b idx)).toNat ≤ (ofNat (b (idx + 1))).toNat := by
  intro idx hidx
  obtain ⟨-, -, h⟩ := bind_ok_iff.mp h
  obtain ⟨leaves, hleaves, -⟩ := bind_ok_iff.mp h
  rw [hn, chunkShape_contiguousGrid] at hleaves
  have hall := mapM_eq_ok.mp hleaves
  have hlen : idx < (range n).length := by rwa [length_range]
  have hleaf := hall.get hlen (hall.length_eq ▸ hlen)
  rw [get_eq_getElem, getElem_range, hrange idx hidx, ok_bind, sliceBytes] at hleaf
  split_ifs at hleaf with hbounds
  exact hbounds.1

end

/-- Streaming agrees with hashing in memory on streams of the right length, and notices shorter
ones, exactly when the size of the dataset fits a word of 64 bits and there can be room for its
leaves: a buffer for each, and the nodes of the tree. -/
theorem contiguousTreeStreaming_eq_iff (H : Hashers) (dims : List UInt64) (elemSize : UInt32)
    (targetBytes : UInt64) (alg : HashAlg) :
    (∀ stream : Bytes,
      (stream.length = elemSize.toNat * elements dims →
        ∃ result,
          (contiguousTreeAndGrid H stream dims elemSize targetBytes alg :
            Except (Halt StreamError) _) = .ok result ∧
          contiguousTreeStreaming H stream dims elemSize targetBytes alg = .ok result) ∧
      (stream.length < elemSize.toNat * elements dims →
        ∃ e, contiguousTreeStreaming H stream dims elemSize targetBytes alg =
          .error (.error e))) ↔
    elemSize.toNat * elements dims < 2 ^ 64 ∧
      (contiguousGrid H dims elemSize targetBytes alg).totalChunkCount.toNat ≤ 2 ^ 57 ∧
      ∀ idx < (contiguousGrid H dims elemSize targetBytes alg).totalChunkCount.toNat,
        ∀ range, (leafByteRange (tileShape dims elemSize targetBytes) dims elemSize (ofNat idx) :
          Except (Halt StreamError) _) = .ok range → range.2.toNat - range.1.toNat < 2 ^ 63 := by
  obtain ⟨b, hmono, hzero, hrange, hlast⟩ :=
    @leafRanges_spec StreamError H dims elemSize targetBytes alg
  generalize hn : (contiguousGrid H dims elemSize targetBytes alg).totalChunkCount.toNat = n at *
  constructor
  · intro h
    -- in memory every leaf is a slice, so the leaves form a chain, which ends within a word
    obtain ⟨result, hmemory, hstream⟩ :=
      (h (replicate (elemSize.toNat * elements dims) 0)).1 length_replicate
    have hchain := chained_rangesBetween hzero
      (boundary_le_of_contiguousTreeAndGrid hn hrange hmemory)
    obtain ⟨hcount, hsmall⟩ := room_of_contiguousTreeStreaming hn hrange hchain hstream
    refine ⟨?_, hcount, fun idx hidx range hleaf => ?_⟩
    · by_contra hlarge
      -- a stream that is one byte short is longer than that
      obtain ⟨e, hshort⟩ := (h (replicate (elemSize.toNat * elements dims - 1) 0)).2
        (by rw [length_replicate]; omega)
      have hword := toNat_lt (ofNat (b n))
      rw [contiguousTreeStreaming_of_chained hn hrange hcount hchain hsmall,
        if_pos (by rw [length_replicate]; omega)] at hshort
      exact nomatch hshort
    · rw [hrange idx hidx] at hleaf
      exact Except.ok.inj hleaf ▸ hsmall _ (mem_map_of_mem (mem_range.mpr hidx))
  · rintro ⟨hfits, hcount, hleaves⟩ stream
    have hsmall : ∀ range ∈ rangesBetween b n, range.2.toNat - range.1.toNat < 2 ^ 63 :=
      forall_mem_map.mpr fun idx hidx => hleaves idx (mem_range.mp hidx) _
        (hrange idx (mem_range.mp hidx))
    have hend := hlast hfits
    have hword : ∀ idx ≤ n, (ofNat (b idx)).toNat = b idx := fun idx hidx =>
      toNat_ofNat_of_lt' ((hmono hidx).trans_lt (hend ▸ hfits))
    have hchain := chained_rangesBetween (n := n) hzero fun idx hidx => by
      rw [hword idx hidx.le, hword (idx + 1) hidx]
      exact hmono (Nat.le_succ idx)
    rw [hword n le_rfl, hend] at hchain
    have hrun := contiguousTreeStreaming_of_chained hn hrange hcount hchain hsmall stream
    refine ⟨fun hlen => ⟨_, contiguousTreeAndGrid_of_chained hn hrange hcount hchain hlen.ge, ?_⟩,
      fun hlen => ⟨.unexpectedEof, ?_⟩⟩
    · rw [hrun, if_pos hlen.ge]
    · rw [hrun, if_neg (not_le.mpr hlen)]

/-- A dataset of `2 ^ 64` bytes is one leaf whose length wraps to zero, and an empty stream passes
for it. -/
theorem contiguousTreeStreaming_accepts_empty :
    ([] : Bytes).length < (1 : UInt32).toNat * elements [2 ^ 32, 2 ^ 32] ∧
      ∃ result, contiguousTreeStreaming sha256Only [] [2 ^ 32, 2 ^ 32] 1 0 .sha256 =
        .ok result := by
  have hcount : (contiguousGrid sha256Only [2 ^ 32, 2 ^ 32] 1 0 .sha256).totalChunkCount.toNat =
      1 := by decide
  have hrange : ∀ idx < 1, (leafByteRange (tileShape [2 ^ 32, 2 ^ 32] 1 0) [2 ^ 32, 2 ^ 32] 1
      (ofNat idx) : Except (Halt StreamError) _) = .ok (ofNat 0, ofNat 0) := by
    decide
  have hchain : Chained 0 (rangesBetween (fun _ => 0) 1) 0 :=
    chained_rangesBetween rfl fun _ _ => le_rfl
  exact ⟨by decide, _, contiguousTreeStreaming_of_chained hcount hrange (by decide) hchain
    (by simp [rangesBetween]) []⟩

end ClawHdf5.Subset
