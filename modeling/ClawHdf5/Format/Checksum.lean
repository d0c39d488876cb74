import ClawHdf5.Format.Basic

/-!
# The metadata checksum

The lookup3 hash that closes every metadata structure of the format. Twelve bytes at a time are
added to three accumulators and mixed; the last one to twelve bytes are added and mixed a second
way.
-/

namespace ClawHdf5.Format

open Bytes Fallible

/-- The three accumulators. -/
structure Lookup3 where
  a : UInt32
  b : UInt32
  c : UInt32

namespace Lookup3

def rot (x k : UInt32) : UInt32 := x <<< k ||| x >>> (32 - k)

def mix (s : Lookup3) : Lookup3 :=
  let ⟨a, b, c⟩ := s
  let a := (a - c) ^^^ rot c 4
  let c := c + b
  let b := (b - a) ^^^ rot a 6
  let a := a + c
  let c := (c - b) ^^^ rot b 8
  let b := b + a
  let a := (a - c) ^^^ rot c 16
  let c := c + b
  let b := (b - a) ^^^ rot a 19
  let a := a + c
  let c := (c - b) ^^^ rot b 4
  let b := b + a
  ⟨a, b, c⟩

def finalMix (s : Lookup3) : Lookup3 :=
  let ⟨a, b, c⟩ := s
  let c := (c ^^^ b) - rot b 14
  let a := (a ^^^ c) - rot c 11
  let b := (b ^^^ a) - rot a 25
  let c := (c ^^^ b) - rot b 16
  let a := (a ^^^ c) - rot c 4
  let b := (b ^^^ a) - rot a 14
  let c := (c ^^^ b) - rot b 24
  ⟨a, b, c⟩

/-- Add twelve bytes, or the one to twelve that are left, as three words. -/
def addBlock (s : Lookup3) (block : Bytes) : Lookup3 :=
  ⟨s.a + ofLe32 (block.take 4), s.b + ofLe32 ((block.drop 4).take 4),
    s.c + ofLe32 ((block.drop 8).take 4)⟩

/-- Mix `n` blocks of twelve bytes and then what is left. -/
def run : ℕ → Lookup3 → Bytes → UInt32
  | 0, s, tail => if tail.isEmpty then s.c else (finalMix (s.addBlock tail)).c
  | n + 1, s, data => run n (mix (s.addBlock (data.take 12))) (data.drop 12)

end Lookup3

def hashlittle (data : Bytes) (initval : UInt32) : UInt32 :=
  let start := 0xdeadbeef + UInt32.ofNat data.length + initval
  -- a last block of twelve bytes is left to the final step
  Lookup3.run ((data.length - 1) / 12) ⟨start, start, start⟩ data

/-- The checksum of a metadata structure. -/
def jenkinsLookup3 (data : Bytes) : UInt32 := hashlittle data 0

def checksum (data : Bytes) : Bytes := le32 (jenkinsLookup3 data)

@[simp] theorem length_checksum (data : Bytes) : (checksum data).length = 4 := length_le32 _

-- the published values of the hash
example : jenkinsLookup3 [] = 0xdeadbeef := by decide +kernel
example : jenkinsLookup3 (utf8Bytes "Four score and seven years ago") = 0x17770551 := by
  decide +kernel

/-- Check the stored checksum of the bytes from `start` up to `pos`, which it follows. -/
def verifyChecksum (fileData : Bytes) (start pos : ℕ) : Run Unit := do
  let stored ← leAt fileData pos 4
  let covered ← slice fileData start pos
  let computed := (jenkinsLookup3 covered).toNat
  reject (computed ≠ stored) (.error (.checksumMismatch stored computed))

theorem verifyChecksum_of_standsAt {file bs : Bytes} {base : ℕ}
    (h : StandsAt file base (bs ++ checksum bs)) :
    verifyChecksum file base (base + bs.length) = .ok () := by
  obtain ⟨hbody, hsum⟩ := standsAt_append.mp h
  have hlt : (jenkinsLookup3 bs).toNat < 256 ^ 4 := (jenkinsLookup3 bs).toNat_lt
  rw [verifyChecksum, leAt_of_standsAt hsum hlt, slice_of_standsAt hbody]
  exact reject_of_not (not_not.mpr rfl)

end ClawHdf5.Format
