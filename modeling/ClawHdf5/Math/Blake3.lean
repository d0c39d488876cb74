import ClawHdf5.Math.Sha256

/-!
# BLAKE3

The BLAKE3 hash of a byte string, in its default mode and with a digest of 32 bytes. Words are
natural numbers below `2 ^ 32`. As for SHA-256, the definitions are structurally recursive, so that
the kernel evaluates the digest of a short message.
-/

namespace ClawHdf5.Blake3

open Bytes
open Sha256 (rotr groups)

/-- The initial chaining value. -/
def iv : List ℕ := [0x6a09e667, 0xbb67ae85, 0x3c6ef372, 0xa54ff53a, 0x510e527f, 0x9b05688c,
  0x1f83d9ab, 0x5be0cd19]

/-- The order of the message words in the next round. -/
def permutation : List ℕ := [2, 6, 3, 10, 7, 0, 4, 13, 1, 11, 12, 5, 9, 14, 15, 8]

/-- Four words of the state, a column or a diagonal of it. -/
structure Column where
  (a b c d : ℕ)

def mix (v : Column) (x y : ℕ) : Column :=
  let a := (v.a + v.b + x) % 2 ^ 32
  let d := rotr (v.d ^^^ a) 16
  let c := (v.c + d) % 2 ^ 32
  let b := rotr (v.b ^^^ c) 12
  let a := (a + b + y) % 2 ^ 32
  let d := rotr (d ^^^ a) 8
  let c := (c + d) % 2 ^ 32
  let b := rotr (b ^^^ c) 7
  ⟨a, b, c, d⟩

/-- The state, by its columns. -/
structure State where
  (v₀ v₁ v₂ v₃ : Column)

def diagonals (s : State) : State :=
  ⟨⟨s.v₀.a, s.v₁.b, s.v₂.c, s.v₃.d⟩, ⟨s.v₁.a, s.v₂.b, s.v₃.c, s.v₀.d⟩,
    ⟨s.v₂.a, s.v₃.b, s.v₀.c, s.v₁.d⟩, ⟨s.v₃.a, s.v₀.b, s.v₁.c, s.v₂.d⟩⟩

def ofDiagonals (s : State) : State :=
  ⟨⟨s.v₀.a, s.v₃.b, s.v₂.c, s.v₁.d⟩, ⟨s.v₁.a, s.v₀.b, s.v₃.c, s.v₂.d⟩,
    ⟨s.v₂.a, s.v₁.b, s.v₀.c, s.v₃.d⟩, ⟨s.v₃.a, s.v₂.b, s.v₁.c, s.v₀.d⟩⟩

/-- Mix eight message words into the columns. -/
def mixAll (s : State) (m : List ℕ) : State :=
  ⟨mix s.v₀ (m.getD 0 0) (m.getD 1 0), mix s.v₁ (m.getD 2 0) (m.getD 3 0),
    mix s.v₂ (m.getD 4 0) (m.getD 5 0), mix s.v₃ (m.getD 6 0) (m.getD 7 0)⟩

/-- One round: columns, then diagonals. -/
def round (s : State) (m : List ℕ) : State :=
  ofDiagonals (mixAll (diagonals (mixAll s m)) (m.drop 8))

/-- Several rounds, with the message words permuted between them. -/
def rounds : ℕ → State → List ℕ → State
  | 0, s, _ => s
  | n + 1, s, m => rounds n (round s m) (permutation.map fun i => m.getD i 0)

def compress (cv block : List ℕ) (counter blockLen flags : ℕ) : List ℕ :=
  let v (i : ℕ) := cv.getD i 0
  let w (i : ℕ) := iv.getD i 0
  let s := rounds 7 ⟨⟨v 0, v 4, w 0, counter % 2 ^ 32⟩, ⟨v 1, v 5, w 1, counter / 2 ^ 32 % 2 ^ 32⟩,
    ⟨v 2, v 6, w 2, blockLen⟩, ⟨v 3, v 7, w 3, flags⟩⟩ block
  [s.v₀.a ^^^ s.v₀.c, s.v₁.a ^^^ s.v₁.c, s.v₂.a ^^^ s.v₂.c, s.v₃.a ^^^ s.v₃.c,
    s.v₀.b ^^^ s.v₀.d, s.v₁.b ^^^ s.v₁.d, s.v₂.b ^^^ s.v₂.d, s.v₃.b ^^^ s.v₃.d]

/-- The words of a block, padded with zeros. -/
def blockWords (block : Bytes) : List ℕ :=
  (groups 4 16 (block ++ List.replicate (64 - block.length) 0)).map ofLeBytes

/-- Absorb the remaining blocks of chunk number `counter`. The first has the start flag `1`, the
last has the end flag `2` and the flags given. -/
def chunkBlocks (counter flags : ℕ) : ℕ → ℕ → List ℕ → Bytes → List ℕ
  | 0, _, cv, _ => cv
  | fuel + 1, start, cv, bs =>
    if bs.length ≤ 64 then compress cv (blockWords bs) counter bs.length (start ||| 2 ||| flags)
    else chunkBlocks counter flags fuel 0
      (compress cv (blockWords (bs.take 64)) counter 64 start) (bs.drop 64)

def chunkValue (counter flags : ℕ) (bs : Bytes) : List ℕ := chunkBlocks counter flags 16 1 iv bs

/-- How many of `n` chunks are in the left subtree: the largest power of two below `n`. -/
def leftChunks (n : ℕ) : ℕ := 2 ^ Nat.log2 (n - 1)

/-- The chaining value of the subtree over `bs`, which starts with chunk number `counter`. -/
def subtreeValue (flags : ℕ) : ℕ → ℕ → Bytes → List ℕ
  | 0, counter, bs => chunkValue counter flags bs
  | fuel + 1, counter, bs =>
    let chunks := (bs.length + 1023) / 1024
    if chunks ≤ 1 then chunkValue counter flags bs
    else
      let left := leftChunks chunks
      let l := subtreeValue 0 fuel counter (bs.take (1024 * left))
      let r := subtreeValue 0 fuel (counter + left) (bs.drop (1024 * left))
      compress iv (l ++ r) 0 64 (4 ||| flags)

/-- The BLAKE3 digest. The root has the flag `8`. -/
def digest (m : Bytes) : Bytes :=
  let cv := subtreeValue 8 ((m.length + 1023) / 1024) 0 m
  (List.range 8).flatMap fun i => leBytes 4 (cv.getD i 0)

theorem length_digest (m : Bytes) : (digest m).length = 32 := by
  simp [digest]

/-- The digest of `abc`. -/
example : digest [0x61, 0x62, 0x63] =
    [0x64, 0x37, 0xb3, 0xac, 0x38, 0x46, 0x51, 0x33, 0xff, 0xb6, 0x3b, 0x75, 0x27, 0x3a, 0x8d,
      0xb5, 0x48, 0xc5, 0x58, 0x46, 0x5d, 0x79, 0xdb, 0x03, 0xfd, 0x35, 0x9c, 0x6c, 0xd5, 0xbd,
      0x9d, 0x85] := by
  decide +kernel

end ClawHdf5.Blake3
