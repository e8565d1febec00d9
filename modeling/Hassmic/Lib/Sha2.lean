import Hassmic.Lib.Blocks
import Hassmic.Lib.Bytes

/-!
# SHA-256 and HMAC

The hash of FIPS 180-4 and the keyed hash of RFC 2104, over byte strings, as the two standards put
them: a message is padded to whole blocks, and the blocks are taken one after the other by the
compression function.

## Main definitions

* `Sha2.Ch`, `Sha2.Maj`, `Sha2.bigSigma0`, … — the functions on words.
* `Sha2.schedule`, `Sha2.round`, `Sha2.compress` — one block.
* `Sha2.pad`, `Sha2.sha256` — a message.
* `Sha2.hmac` — the keyed hash, of any hash and block.

## Main results

* `Sha2.length_pad` — the padded message is whole blocks.
* `Sha2.K_roots`, `Sha2.H0_roots` — the constants are the digits of roots of primes.
-/

namespace Sha2

open List

/-- A word of 32 bits. -/
abbrev Word := BitVec 32

/-! ### Functions and constants -/

def Ch (x y z : Word) : Word := (x &&& y) ^^^ (~~~x &&& z)

def Maj (x y z : Word) : Word := (x &&& y) ^^^ (x &&& z) ^^^ (y &&& z)

def bigSigma0 (x : Word) : Word := x.rotateRight 2 ^^^ x.rotateRight 13 ^^^ x.rotateRight 22

def bigSigma1 (x : Word) : Word := x.rotateRight 6 ^^^ x.rotateRight 11 ^^^ x.rotateRight 25

def smallSigma0 (x : Word) : Word := x.rotateRight 7 ^^^ x.rotateRight 18 ^^^ x >>> 3

def smallSigma1 (x : Word) : Word := x.rotateRight 17 ^^^ x.rotateRight 19 ^^^ x >>> 10

/-- The constants of the rounds. -/
def K : List Word :=
  [0x428a2f98, 0x71374491, 0xb5c0fbcf, 0xe9b5dba5, 0x3956c25b, 0x59f111f1, 0x923f82a4, 0xab1c5ed5,
    0xd807aa98, 0x12835b01, 0x243185be, 0x550c7dc3, 0x72be5d74, 0x80deb1fe, 0x9bdc06a7, 0xc19bf174,
    0xe49b69c1, 0xefbe4786, 0x0fc19dc6, 0x240ca1cc, 0x2de92c6f, 0x4a7484aa, 0x5cb0a9dc, 0x76f988da,
    0x983e5152, 0xa831c66d, 0xb00327c8, 0xbf597fc7, 0xc6e00bf3, 0xd5a79147, 0x06ca6351, 0x14292967,
    0x27b70a85, 0x2e1b2138, 0x4d2c6dfc, 0x53380d13, 0x650a7354, 0x766a0abb, 0x81c2c92e, 0x92722c85,
    0xa2bfe8a1, 0xa81a664b, 0xc24b8b70, 0xc76c51a3, 0xd192e819, 0xd6990624, 0xf40e3585, 0x106aa070,
    0x19a4c116, 0x1e376c08, 0x2748774c, 0x34b0bcb5, 0x391c0cb3, 0x4ed8aa4a, 0x5b9cca4f, 0x682e6ff3,
    0x748f82ee, 0x78a5636f, 0x84c87814, 0x8cc70208, 0x90befffa, 0xa4506ceb, 0xbef9a3f7, 0xc67178f2]

/-- Eight words: the working variables, or a hash value. -/
@[ext] structure Eight where
  a : Word
  b : Word
  c : Word
  d : Word
  e : Word
  f : Word
  g : Word
  h : Word
  deriving DecidableEq

namespace Eight

/-- The words in their order. -/
def toList (v : Eight) : List Word := [v.a, v.b, v.c, v.d, v.e, v.f, v.g, v.h]

/-- Word by word. -/
def add (v w : Eight) : Eight :=
  ⟨v.a + w.a, v.b + w.b, v.c + w.c, v.d + w.d, v.e + w.e, v.f + w.f, v.g + w.g, v.h + w.h⟩

end Eight

/-- The initial hash value. -/
def H0 : Eight :=
  ⟨0x6a09e667, 0xbb67ae85, 0x3c6ef372, 0xa54ff53a, 0x510e527f, 0x9b05688c, 0x1f83d9ab, 0x5be0cd19⟩

def primes : List ℕ :=
  [2, 3, 5, 7, 11, 13, 17, 19, 23, 29, 31, 37, 41, 43, 47, 53, 59, 61, 67, 71, 73, 79, 83, 89, 97,
    101, 103, 107, 109, 113, 127, 131, 137, 139, 149, 151, 157, 163, 167, 173, 179, 181, 191, 193,
    197, 199, 211, 223, 227, 229, 233, 239, 241, 251, 257, 263, 269, 271, 277, 281,
    283, 293, 307, 311]

/-- The constants are the first 32 bits behind the point of the cube roots of primes. -/
theorem K_roots : ∀ t < 64, ∃ i < 7, ((K.getD t 0).toNat + 2 ^ 32 * i) ^ 3 ≤
    primes.getD t 0 * 2 ^ 96 ∧
    primes.getD t 0 * 2 ^ 96 < ((K.getD t 0).toNat + 2 ^ 32 * i + 1) ^ 3 := by
  decide

/-- The initial hash value is the first 32 bits behind the point of the square roots of primes. -/
theorem H0_roots : ∀ t < 8, ∃ i < 5, ((H0.toList.getD t 0).toNat + 2 ^ 32 * i) ^ 2 ≤
    primes.getD t 0 * 2 ^ 64 ∧
    primes.getD t 0 * 2 ^ 64 < ((H0.toList.getD t 0).toNat + 2 ^ 32 * i + 1) ^ 2 := by
  decide

/-! ### One block -/

/-- Four bytes as a word, the first of them the highest. -/
def wordOf (p : Bytes) (i : ℕ) : Word :=
  BitVec.ofNat 32 ((p.getD i 0).toNat * 2 ^ 24 + (p.getD (i + 1) 0).toNat * 2 ^ 16 +
    (p.getD (i + 2) 0).toNat * 2 ^ 8 + (p.getD (i + 3) 0).toNat)

/-- The message schedule. -/
def schedule (block : Bytes) (t : ℕ) : Word :=
  if t < 16 then wordOf block (4 * t)
  else smallSigma1 (schedule block (t - 2)) + schedule block (t - 7) +
    smallSigma0 (schedule block (t - 15)) +
    schedule block (t - 16)
termination_by t

/-- A round, with its constant and its word of the schedule. -/
def round (v : Eight) (k w : Word) : Eight :=
  let t1 := v.h + bigSigma1 v.e + Ch v.e v.f v.g + k + w
  let t2 := bigSigma0 v.a + Maj v.a v.b v.c
  ⟨t1 + t2, v.a, v.b, v.c, v.d + t1, v.e, v.f, v.g⟩

/-- The hash value after one more block. -/
def compress (H : Eight) (block : Bytes) : Eight :=
  ((List.range 64).foldl (fun v t => round v (K.getD t 0) (schedule block t)) H).add H

/-! ### A message -/

/-- How many bits are clear between the one set bit and the length, of a message of so many bits. -/
def zeroBits (l : ℕ) : ℕ := (447 + 512 - l % 512) % 512

/-- The 64 bits that say how many bits there are. -/
def lengthBlock (l : ℕ) : Bytes := (List.range 8).map fun i => (l / 2 ^ (56 - 8 * i)).toUInt8

/-- The padded message. -/
def pad (m : Bytes) : Bytes :=
  m ++ (0x80 :: List.replicate (zeroBits (8 * m.length) / 8) 0 ++ lengthBlock (8 * m.length))

theorem length_pad (m : Bytes) : (pad m).length % 64 = 0 := by
  unfold pad lengthBlock zeroBits
  simp only [length_append, length_cons, length_replicate, length_map, length_range]
  omega

/-- A word as four bytes. -/
def bytesOf (w : Word) : Bytes :=
  [(w.toNat / 2 ^ 24).toUInt8, (w.toNat / 2 ^ 16).toUInt8, (w.toNat / 2 ^ 8).toUInt8,
    w.toNat.toUInt8]

/-- SHA-256. -/
def sha256 (m : Bytes) : Bytes :=
  ((Blocks.parse 64 (pad m)).foldl compress H0).toList.flatMap bytesOf

/-- HMAC, of a hash that takes blocks of `B` bytes. -/
def hmac (H : Bytes → Bytes) (B : ℕ) (key text : Bytes) : Bytes :=
  let k := if B < key.length then H key else key
  let k := k ++ List.replicate (B - k.length) 0
  H (k.map (· ^^^ 0x5c) ++ H (k.map (· ^^^ 0x36) ++ text))

end Sha2
