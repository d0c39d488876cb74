import ClawHdf5.Math.Bytes

/-!
# SHA-256

FIPS 180-4 SHA-256 on byte strings. Words are natural numbers below `2 ^ 32`. The
definitions are structurally recursive, so the digest of a short message is evaluated by
the kernel; closed instances of results that take the hash as a parameter use this one.
-/

namespace ClawHdf5.Sha256

open Bytes

def roundConstants : List ℕ := [
  0x428a2f98, 0x71374491, 0xb5c0fbcf, 0xe9b5dba5, 0x3956c25b, 0x59f111f1, 0x923f82a4, 0xab1c5ed5,
  0xd807aa98, 0x12835b01, 0x243185be, 0x550c7dc3, 0x72be5d74, 0x80deb1fe, 0x9bdc06a7, 0xc19bf174,
  0xe49b69c1, 0xefbe4786, 0x0fc19dc6, 0x240ca1cc, 0x2de92c6f, 0x4a7484aa, 0x5cb0a9dc, 0x76f988da,
  0x983e5152, 0xa831c66d, 0xb00327c8, 0xbf597fc7, 0xc6e00bf3, 0xd5a79147, 0x06ca6351, 0x14292967,
  0x27b70a85, 0x2e1b2138, 0x4d2c6dfc, 0x53380d13, 0x650a7354, 0x766a0abb, 0x81c2c92e, 0x92722c85,
  0xa2bfe8a1, 0xa81a664b, 0xc24b8b70, 0xc76c51a3, 0xd192e819, 0xd6990624, 0xf40e3585, 0x106aa070,
  0x19a4c116, 0x1e376c08, 0x2748774c, 0x34b0bcb5, 0x391c0cb3, 0x4ed8aa4a, 0x5b9cca4f, 0x682e6ff3,
  0x748f82ee, 0x78a5636f, 0x84c87814, 0x8cc70208, 0x90befffa, 0xa4506ceb, 0xbef9a3f7, 0xc67178f2]

/-- The eight working variables, also the chaining value. -/
structure State where
  (a b c d e f g h : ℕ)

/-- The initial chaining value. -/
def initial : State :=
  ⟨0x6a09e667, 0xbb67ae85, 0x3c6ef372, 0xa54ff53a, 0x510e527f, 0x9b05688c, 0x1f83d9ab, 0x5be0cd19⟩

/-- Rotate a 32-bit word right. -/
def rotr (x n : ℕ) : ℕ := (x >>> n) ||| ((x <<< (32 - n)) % 2 ^ 32)

/-- One round with constant `k` and schedule word `w`. -/
def round (s : State) (k w : ℕ) : State :=
  let sigma1 := rotr s.e 6 ^^^ rotr s.e 11 ^^^ rotr s.e 25
  let ch := (s.e &&& s.f) ^^^ ((2 ^ 32 - 1 - s.e) &&& s.g)
  let t1 := (s.h + sigma1 + ch + k + w) % 2 ^ 32
  let sigma0 := rotr s.a 2 ^^^ rotr s.a 13 ^^^ rotr s.a 22
  let maj := (s.a &&& s.b) ^^^ (s.a &&& s.c) ^^^ (s.b &&& s.c)
  ⟨(t1 + (sigma0 + maj)) % 2 ^ 32, s.a, s.b, s.c, (s.d + t1) % 2 ^ 32, s.e, s.f, s.g⟩

/-- Run the rounds of a block. The second argument is the window of the next sixteen
schedule words; its head is consumed and the word sixteen places on is appended. -/
def rounds : List ℕ → List ℕ → State → State
  | [], _, s => s
  | k :: ks, ws, s =>
    let w1 := ws.getD 1 0
    let w14 := ws.getD 14 0
    let next := (ws.getD 0 0 + (rotr w1 7 ^^^ rotr w1 18 ^^^ (w1 >>> 3)) + ws.getD 9 0 +
      (rotr w14 17 ^^^ rotr w14 19 ^^^ (w14 >>> 10))) % 2 ^ 32
    rounds ks (ws.tail ++ [next]) (round s k (ws.getD 0 0))

/-- The first `k` groups of `n` entries. -/
def groups {β : Type*} (n : ℕ) : ℕ → List β → List (List β)
  | 0, _ => []
  | k + 1, l => l.take n :: groups n k (l.drop n)

/-- Absorb one 64-byte block. -/
def compress (s : State) (block : Bytes) : State :=
  let r := rounds roundConstants ((groups 4 16 block).map fun w => ofLeBytes w.reverse) s
  ⟨(s.a + r.a) % 2 ^ 32, (s.b + r.b) % 2 ^ 32, (s.c + r.c) % 2 ^ 32, (s.d + r.d) % 2 ^ 32,
    (s.e + r.e) % 2 ^ 32, (s.f + r.f) % 2 ^ 32, (s.g + r.g) % 2 ^ 32, (s.h + r.h) % 2 ^ 32⟩

/-- A one bit, zeros up to 56 bytes modulo 64, and the bit length. -/
def pad (m : Bytes) : Bytes :=
  m ++ 0x80 :: List.replicate ((119 - m.length % 64) % 64) 0 ++ beBytes 8 (8 * m.length)

def digest (m : Bytes) : Bytes :=
  let r := (groups 64 ((pad m).length / 64) (pad m)).foldl compress initial
  beBytes 4 r.a ++ beBytes 4 r.b ++ beBytes 4 r.c ++ beBytes 4 r.d ++
    beBytes 4 r.e ++ beBytes 4 r.f ++ beBytes 4 r.g ++ beBytes 4 r.h

theorem length_digest (m : Bytes) : (digest m).length = 32 := by
  simp [digest]

def digestArray (m : Bytes) : Fixed 32 := ⟨digest m, length_digest m⟩

/-- The digest of `abc`. -/
example : digest [0x61, 0x62, 0x63] =
    [0xba, 0x78, 0x16, 0xbf, 0x8f, 0x01, 0xcf, 0xea, 0x41, 0x41, 0x40, 0xde, 0x5d, 0xae, 0x22,
      0x23, 0xb0, 0x03, 0x61, 0xa3, 0x96, 0x17, 0x7a, 0x9c, 0xb4, 0x10, 0xff, 0x61, 0xf2, 0x00,
      0x15, 0xad] := by
  decide +kernel

end ClawHdf5.Sha256
