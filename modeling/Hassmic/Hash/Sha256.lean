import Hassmic.Lib.Sha2

/-!
# SHA-256 and HMAC-SHA-256

The hash of data that comes in pieces: what does not fill a block waits in a buffer for the next
piece, and the padding at the end is one more piece.

## Main definitions

* `ror`, `expand`, `sha256Round`, `sha256Block` — one block.
* `Sha256`, `sha256Update`, `sha256Final` — `struct sha256`, a piece of the data, and the end.
* `sha256`, `hmacSha256` — all at once, and with a key.

## Main results

* `sha256Block_eq` — a block is taken as the standard says.
* `update_absorbs` — a piece is taken behind what waits in the buffer.
* `sha256_sound` — **the hash of all pieces, and the keyed hash, are those of the standards**.
-/

namespace Hassmic.Hash

open List

open Sha2 (Word Eight)

/-! ### One block -/

/-- `ROR`. -/
def ror (x : Word) (n : ℕ) : Word := x >>> n ||| x <<< (32 - n)

/-- `K256`. -/
def k256 : List Word :=
  [0x428a2f98, 0x71374491, 0xb5c0fbcf, 0xe9b5dba5, 0x3956c25b, 0x59f111f1, 0x923f82a4,
    0xab1c5ed5, 0xd807aa98, 0x12835b01, 0x243185be, 0x550c7dc3, 0x72be5d74, 0x80deb1fe, 0x9bdc06a7,
    0xc19bf174, 0xe49b69c1, 0xefbe4786, 0x0fc19dc6, 0x240ca1cc, 0x2de92c6f, 0x4a7484aa, 0x5cb0a9dc,
    0x76f988da, 0x983e5152, 0xa831c66d, 0xb00327c8, 0xbf597fc7, 0xc6e00bf3, 0xd5a79147, 0x06ca6351,
    0x14292967, 0x27b70a85, 0x2e1b2138, 0x4d2c6dfc, 0x53380d13, 0x650a7354, 0x766a0abb, 0x81c2c92e,
    0x92722c85, 0xa2bfe8a1, 0xa81a664b, 0xc24b8b70, 0xc76c51a3, 0xd192e819, 0xd6990624, 0xf40e3585,
    0x106aa070, 0x19a4c116, 0x1e376c08, 0x2748774c, 0x34b0bcb5, 0x391c0cb3, 0x4ed8aa4a, 0x5b9cca4f,
    0x682e6ff3, 0x748f82ee, 0x78a5636f, 0x84c87814, 0x8cc70208, 0x90befffa, 0xa4506ceb,
    0xbef9a3f7, 0xc67178f2]

/-- A byte as a word, shifted. -/
def byteAt (p : Bytes) (i : ℕ) : Word := (p.getD i 0).toBitVec.setWidth 32

/-- Four bytes as a word. -/
def loadWord (p : Bytes) (i : ℕ) : Word :=
  byteAt p (4 * i) <<< 24 ||| byteAt p (4 * i + 1) <<< 16 ||| byteAt p (4 * i + 2) <<< 8 |||
    byteAt p (4 * i + 3)

/-- One more word of `w`. -/
def expand (w : List Word) (i : ℕ) : List Word :=
  let s0 := ror (w.getD (i - 15) 0) 7 ^^^ ror (w.getD (i - 15) 0) 18 ^^^ w.getD (i - 15) 0 >>> 3
  let s1 := ror (w.getD (i - 2) 0) 17 ^^^ ror (w.getD (i - 2) 0) 19 ^^^ w.getD (i - 2) 0 >>> 10
  w ++ [w.getD (i - 16) 0 + s0 + w.getD (i - 7) 0 + s1]

/-- The words `w` of a block. -/
def words (p : Bytes) : List Word :=
  (List.range' 16 48).foldl expand ((List.range 16).map (loadWord p))

/-- One turn over `s`. -/
def sha256Round (w : List Word) (s : Eight) (i : ℕ) : Eight :=
  let S1 := ror s.e 6 ^^^ ror s.e 11 ^^^ ror s.e 25
  let ch := (s.e &&& s.f) ^^^ (~~~s.e &&& s.g)
  let t1 := s.h + S1 + ch + k256.getD i 0 + w.getD i 0
  let S0 := ror s.a 2 ^^^ ror s.a 13 ^^^ ror s.a 22
  let maj := (s.a &&& s.b) ^^^ (s.a &&& s.c) ^^^ (s.b &&& s.c)
  { h := s.g, g := s.f, f := s.e, e := s.d + t1, d := s.c, c := s.b, b := s.a, a := t1 + S0 + maj }

/-- `sha256_block`: the words `h` after one more block. -/
def sha256Block (h : Eight) (p : Bytes) : Eight :=
  h.add ((List.range 64).foldl (sha256Round (words p)) h)

/-! ### The data in pieces -/

/-- `struct sha256`: the words of the hash, how many bytes came, and those that wait for a whole
block. -/
structure Sha256 where
  h : Eight
  len : BitVec 64
  buf : Bytes
  n : ℕ
  buf_length : buf.length = 64
  n_lt : n < 64

/-- The initial words. -/
def iv : Eight :=
  ⟨0x6a09e667, 0xbb67ae85, 0x3c6ef372, 0xa54ff53a, 0x510e527f, 0x9b05688c, 0x1f83d9ab, 0x5be0cd19⟩

/-- `sha256_init`; what the buffer holds is never read. -/
def sha256Init : Sha256 where
  h := iv
  len := 0
  buf := replicate 64 0
  n := 0
  buf_length := length_replicate
  n_lt := by decide

/-- `memcpy(buf + n, p, k)`. -/
def copied (buf : Bytes) (n : ℕ) (p : Bytes) : Bytes := buf.take n ++ p ++ buf.drop (n + p.length)

theorem length_copied {buf : Bytes} {n : ℕ} {p : Bytes} (h : n + p.length ≤ buf.length) :
    (copied buf n p).length = buf.length := by
  unfold copied
  rw [length_append, length_append, length_take, length_drop]
  omega

/-- How much of a piece goes into the buffer. -/
def part (c : Sha256) (p : Bytes) : Bytes := p.take (64 - c.n)

theorem part_le (c : Sha256) (p : Bytes) : c.n + (part c p).length ≤ c.buf.length := by
  have hn := c.n_lt
  rw [c.buf_length, part, length_take]
  omega

/-- One turn of `sha256_update`: as much of a piece as fits, and the block when it is whole. -/
def turn (c : Sha256) (p : Bytes) : Sha256 :=
  let buf := copied c.buf c.n (part c p)
  have hbuf : buf.length = 64 := (length_copied (part_le c p)).trans c.buf_length
  if h64 : c.n + (part c p).length = 64 then
    { c with h := sha256Block c.h buf, buf, n := 0, buf_length := hbuf, n_lt := by decide }
  else
    { c with buf, n := c.n + (part c p).length, buf_length := hbuf,
             n_lt := lt_of_le_of_ne (c.buf_length ▸ part_le c p) h64 }

/-- The loop of `sha256_update`. -/
def updateLoop (c : Sha256) (p : Bytes) : Sha256 :=
  if _h : p = [] then c else updateLoop (turn c p) (p.drop (part c p).length)
termination_by p.length
decreasing_by
  have hn := c.n_lt
  have hp := List.length_pos_iff.mpr _h
  rw [length_drop, part, length_take]
  omega

/-- `sha256_update`. -/
def sha256Update (c : Sha256) (data : Bytes) : Sha256 :=
  updateLoop { c with len := c.len + BitVec.ofNat 64 data.length } data

/-- `sha256_final`. -/
def sha256Final (c : Sha256) : Bytes :=
  let bits := c.len * 8
  let padding : Bytes := 0x80 :: replicate 71 0
  let padlen := (if c.n < 56 then 56 else 120) - c.n
  let lenb := (List.range 8).map fun i => UInt8.ofNat (bits >>> (56 - 8 * i)).toNat
  let c := sha256Update c (padding.take padlen)
  let c := sha256Update c lenb
  c.h.toList.flatMap fun w : Word =>
    [UInt8.ofNat (w >>> 24).toNat, UInt8.ofNat (w >>> 16).toNat, UInt8.ofNat (w >>> 8).toNat,
      UInt8.ofNat w.toNat]

/-- `sha256`. -/
def sha256 (data : Bytes) : Bytes := sha256Final (sha256Update sha256Init data)

/-- `hmac_sha256`: of two pieces of data. -/
def hmacSha256 (key a b : Bytes) : Bytes :=
  let k := replicate 64 0
  let k := if 64 < key.length then copied k 0 (sha256 key) else copied k 0 key
  let pad := k.map (· ^^^ 0x36)
  let c := sha256Update (sha256Update sha256Init pad) a
  let c := if b.length ≠ 0 then sha256Update c b else c
  let inner := sha256Final c
  let pad := k.map (· ^^^ 0x5c)
  sha256Final (sha256Update (sha256Update sha256Init pad) inner)

/-! ### A block is taken as the standard says -/

theorem ror_eq {n : ℕ} (hn : n < 32) (x : Word) : ror x n = x.rotateRight n := by
  rw [ror, BitVec.rotateRight_def, Nat.mod_eq_of_lt hn]

theorem loadWord_eq (p : Bytes) (i : ℕ) : loadWord p i = Sha2.wordOf p (4 * i) := by
  unfold loadWord Sha2.wordOf byteAt
  generalize p.getD (4 * i) 0 = a
  generalize p.getD (4 * i + 1) 0 = b
  generalize p.getD (4 * i + 2) 0 = c
  generalize p.getD (4 * i + 3) 0 = d
  have ha := a.toNat_lt
  have hb := b.toNat_lt
  have hc := c.toNat_lt
  have hd := d.toNat_lt
  apply BitVec.eq_of_toNat_eq
  simp only [BitVec.toNat_or, BitVec.toNat_shiftLeft, BitVec.toNat_setWidth, BitVec.toNat_ofNat,
    UInt8.toNat_toBitVec, Nat.shiftLeft_eq]
  rw [Nat.mod_eq_of_lt (a := a.toNat) (by omega), Nat.mod_eq_of_lt (a := b.toNat) (by omega),
    Nat.mod_eq_of_lt (a := c.toNat) (by omega), Nat.mod_eq_of_lt (a := d.toNat) (by omega),
    Nat.mod_eq_of_lt (a := a.toNat * _) (by omega), Nat.mod_eq_of_lt (a := b.toNat * _) (by omega),
    Nat.mod_eq_of_lt (a := c.toNat * _) (by omega), Nat.mod_eq_of_lt (by omega)]
  -- the bytes have no bit in common
  rw [Nat.or_assoc, Nat.or_assoc, Nat.mul_comm a.toNat, Nat.mul_comm b.toNat, Nat.mul_comm c.toNat,
    ← Nat.two_pow_add_eq_or_of_lt (i := 8) (by omega),
    ← Nat.two_pow_add_eq_or_of_lt (i := 16) (by omega),
    ← Nat.two_pow_add_eq_or_of_lt (i := 24) (by omega)]
  omega

/-- The words of a block, so far. -/
theorem words_init (p : Bytes) : ∀ n : ℕ,
    ((List.range' 16 n).foldl expand ((List.range 16).map (loadWord p))).length = 16 + n ∧
      ∀ t < 16 + n, ((List.range' 16 n).foldl expand ((List.range 16).map (loadWord p))).getD t 0 =
        Sha2.schedule p t := by
  intro n
  induction n with
  | zero =>
    refine ⟨by simp, fun t ht => ?_⟩
    rw [range'_zero, foldl_nil, getD_eq_getElem _ _ (by simpa using ht), getElem_map,
      getElem_range, loadWord_eq, Sha2.schedule, if_pos (by omega)]
  | succ n ih =>
    obtain ⟨hlen, hget⟩ := ih
    rw [range'_concat, foldl_append, foldl_cons, foldl_nil, Nat.one_mul]
    generalize (List.range' 16 n).foldl expand ((List.range 16).map (loadWord p)) = w at hlen hget ⊢
    refine ⟨by rw [expand, length_append, hlen, length_singleton]; omega, fun t ht => ?_⟩
    rcases Nat.lt_or_ge t (16 + n) with h | h
    · rw [expand, getD_append _ _ _ _ (by omega), hget t h]
    · obtain rfl : t = 16 + n := by omega
      rw [expand, getD_append_right _ _ _ _ (by omega), hlen, Nat.sub_self,
        getD_cons_zero, Sha2.schedule, if_neg (by omega), hget _ (by omega), hget _ (by omega),
        hget _ (by omega), hget _ (by omega)]
      simp only [ror_eq (by decide : 7 < 32), ror_eq (by decide : 17 < 32),
        ror_eq (by decide : 18 < 32), ror_eq (by decide : 19 < 32)]
      show _ = (Sha2.smallSigma1 _ + _ + Sha2.smallSigma0 _ + _)
      unfold Sha2.smallSigma0 Sha2.smallSigma1
      ac_rfl

theorem k256_eq : k256 = Sha2.K := rfl

/-- **A block is taken as the standard says.** -/
theorem sha256Block_eq (h : Eight) (p : Bytes) : sha256Block h p = Sha2.compress h p := by
  have hround : ∀ t ∈ List.range 64, ∀ v, sha256Round (words p) v t =
      Sha2.round v (Sha2.K.getD t 0) (Sha2.schedule p t) := by
    intro t ht v
    have hw := (words_init p 48).2 t (by simpa using ht)
    unfold sha256Round words Sha2.round
    rw [hw, k256_eq]
    simp only [ror_eq (by decide : 2 < 32), ror_eq (by decide : 6 < 32),
      ror_eq (by decide : 11 < 32), ror_eq (by decide : 13 < 32), ror_eq (by decide : 22 < 32),
      ror_eq (by decide : 25 < 32)]
    unfold Sha2.bigSigma0 Sha2.bigSigma1 Sha2.Ch Sha2.Maj
    ext1
    case a => exact BitVec.add_assoc _ _ _
    all_goals rfl
  have hfold : ∀ (l : List ℕ) (v : Eight), (∀ t ∈ l, t ∈ List.range 64) →
      l.foldl (sha256Round (words p)) v =
        l.foldl (fun v t => Sha2.round v (Sha2.K.getD t 0) (Sha2.schedule p t)) v := by
    intro l v hl
    exact foldl_ext _ _ v fun a t ht => hround t (hl t ht) a
  unfold sha256Block Sha2.compress
  rw [hfold _ _ fun t ht => ht]
  unfold Eight.add
  ext1 <;> dsimp only <;> exact BitVec.add_comm _ _

/-! ### A piece is taken behind what waits -/

open Blocks

/-- What waits for a whole block. -/
def Sha256.rest (c : Sha256) : Bytes := c.buf.take c.n

theorem length_rest (c : Sha256) : c.rest.length = c.n := by
  have hn := c.n_lt
  have hbuf := c.buf_length
  rw [Sha256.rest, length_take]
  omega

theorem part_append (c : Sha256) (p : Bytes) : part c p ++ p.drop (part c p).length = p := by
  unfold part
  rw [length_take]
  rcases Nat.le_total (64 - c.n) p.length with h | h
  · rw [Nat.min_eq_left h, take_append_drop]
  · rw [Nat.min_eq_right h, take_of_length_le h, drop_length, append_nil]

/-- One turn takes its part behind what waits. -/
theorem turn_absorbs (c : Sha256) (p : Bytes) :
    absorb 64 sha256Block (turn c p).h ((turn c p).rest ++ p.drop (part c p).length) =
      absorb 64 sha256Block c.h (c.rest ++ p) ∧ (turn c p).len = c.len := by
  have hsplit : c.rest ++ p = (c.rest ++ part c p) ++ p.drop (part c p).length := by
    rw [append_assoc, part_append]
  have hlen : (c.rest ++ part c p).length = c.n + (part c p).length := by
    rw [length_append, length_rest]
  rw [hsplit]
  unfold turn
  dsimp only
  split
  · next h64 =>
    -- what waits and the part make a block
    have hwhole : copied c.buf c.n (part c p) = c.rest ++ part c p := by
      rw [copied, h64, drop_of_length_le c.buf_length.le, append_nil]
      rfl
    refine ⟨?_, rfl⟩
    rw [absorb_block (l := c.rest ++ part c p ++ _) (by decide) (by rw [length_append]; omega),
      take_left' (hlen.trans h64), drop_left' (hlen.trans h64), ← hwhole]
    rfl
  · next h64 =>
    have hrest : (copied c.buf c.n (part c p)).take (c.n + (part c p).length) =
        c.rest ++ part c p := by
      show ((c.rest ++ part c p) ++ _).take _ = _
      exact take_left' hlen
    refine ⟨?_, rfl⟩
    rw [← hrest]
    rfl

/-- **A piece is taken behind what waits in the buffer.** -/
theorem updateLoop_absorbs (c : Sha256) (p : Bytes) :
    ((updateLoop c p).h, (updateLoop c p).rest) = absorb 64 sha256Block c.h (c.rest ++ p) ∧
      (updateLoop c p).len = c.len := by
  induction c, p using updateLoop.induct with
  | case1 c =>
    have hrest := length_rest c
    have hn := c.n_lt
    rw [updateLoop, dif_pos rfl, append_nil, absorb_short (by omega)]
    exact ⟨rfl, rfl⟩
  | case2 c p hp ih =>
    obtain ⟨hturn, hlen⟩ := turn_absorbs c p
    rw [updateLoop, dif_neg hp, ← hturn, ← hlen]
    exact ih

/-- The data so far: whole blocks of it are taken, the rest waits, and its length is counted. -/
structure Took (c : Sha256) (m : Bytes) : Prop where
  absorbed : (c.h, c.rest) = absorb 64 sha256Block iv m
  len : c.len = BitVec.ofNat 64 m.length

theorem took_init : Took sha256Init [] := by
  refine ⟨?_, rfl⟩
  rw [absorb_short (by decide)]
  rfl

variable {c : Sha256} {m : Bytes}

theorem Took.update (h : Took c m) (data : Bytes) : Took (sha256Update c data) (m ++ data) := by
  obtain ⟨habsorbed, hlen⟩ :=
    updateLoop_absorbs { c with len := c.len + BitVec.ofNat 64 data.length } data
  refine ⟨habsorbed.trans ?_, hlen.trans ?_⟩
  · show absorb 64 sha256Block c.h (c.rest ++ data) = _
    rw [absorb_append (l := m) (m := data) (by decide), ← h.absorbed]
  · show c.len + BitVec.ofNat 64 data.length = _
    rw [h.len, length_append, BitVec.ofNat_add]

/-- What waits is what is behind the whole blocks. -/
theorem Took.n_eq (h : Took c m) : c.n = m.length % 64 := by
  rw [← length_rest c, ← length_absorb (f := sha256Block) (s := iv) (by decide), ← h.absorbed]

/-- The pieces of the data, one after the other. -/
theorem took_pieces (h : Took c m) (pieces : List Bytes) :
    Took (pieces.foldl sha256Update c) (m ++ pieces.flatten) := by
  induction pieces generalizing c m with
  | nil =>
    rw [flatten_nil, append_nil]
    exact h
  | cons p pieces ih =>
    rw [foldl_cons, flatten_cons, ← append_assoc]
    exact ih (h.update p)

/-! ### The end -/

/-- A word as four bytes. -/
theorem bytes_eq (w : Word) :
    [UInt8.ofNat (w >>> 24).toNat, UInt8.ofNat (w >>> 16).toNat, UInt8.ofNat (w >>> 8).toNat,
      UInt8.ofNat w.toNat] =
      Sha2.bytesOf w := by
  unfold Sha2.bytesOf
  simp only [BitVec.toNat_ushiftRight, Nat.shiftRight_eq_div_pow]

/-- The length, in bits. -/
theorem lenb_eq (n : ℕ) :
    (List.range 8).map (fun i => UInt8.ofNat ((BitVec.ofNat 64 n * 8#64) >>> (56 - 8 * i)).toNat) =
      Sha2.lengthBlock (8 * n) := by
  refine map_congr_left fun i hi => ?_
  have hi8 : i < 8 := mem_range.mp hi
  apply UInt8.toNat.inj
  have hbits : (BitVec.ofNat 64 n * 8#64).toNat = 8 * n % 2 ^ 64 := by
    rw [BitVec.toNat_mul, BitVec.toNat_ofNat, BitVec.toNat_ofNat, Nat.mod_mul_mod, Nat.mul_comm]
  -- the byte is among the 64 bits that are kept
  have hkeep : 2 ^ 64 = 2 ^ (56 - 8 * i) * (2 ^ 8 * 2 ^ (8 * i)) := by
    rw [← Nat.pow_add, ← Nat.pow_add]
    congr 1
    omega
  rw [BitVec.toNat_ushiftRight, Nat.shiftRight_eq_div_pow, hbits, hkeep, Nat.mod_mul_right_div_self]
  show _ % 2 ^ 8 = _ % 2 ^ 8
  rw [Nat.mod_mul_right_mod]

/-- **The end of the data is its padding**, and the hash that of the standard. -/
theorem Took.final (h : Took c m) : sha256Final c = Sha2.sha256 m := by
  have hn := h.n_eq
  have hzeros : Sha2.zeroBits (8 * m.length) / 8 + 1 = (if c.n < 56 then 56 else 120) - c.n := by
    unfold Sha2.zeroBits
    split <;> omega
  have hle : Sha2.zeroBits (8 * m.length) / 8 ≤ 71 := by
    unfold Sha2.zeroBits
    omega
  have hpadding : ((0x80 : UInt8) :: replicate 71 0).take ((if c.n < 56 then 56 else 120) - c.n) =
      0x80 :: replicate (Sha2.zeroBits (8 * m.length) / 8) 0 := by
    rw [← hzeros, take_succ_cons, take_replicate, Nat.min_eq_left hle]
  have hend := (h.update (0x80 :: replicate (Sha2.zeroBits (8 * m.length) / 8) 0)).update
    (Sha2.lengthBlock (8 * m.length))
  have hpad : m ++ (0x80 :: replicate (Sha2.zeroBits (8 * m.length) / 8) 0) ++
      Sha2.lengthBlock (8 * m.length) =
      Sha2.pad m := by
    unfold Sha2.pad
    rw [append_assoc]
  have hwords := congrArg Prod.fst hend.absorbed
  have hblock : sha256Block = Sha2.compress := funext fun v => funext fun b => sha256Block_eq v b
  rw [hpad, absorb_eq_foldl (by decide), hblock] at hwords
  dsimp only at hwords
  unfold sha256Final
  dsimp only
  rw [hpadding, h.len]
  simp only [bytes_eq]
  rw [show (8 : BitVec 64) = 8#64 from rfl, lenb_eq, hwords]
  rfl

/-- The hash of all at once. -/
theorem sha256_eq (data : Bytes) : sha256 data = Sha2.sha256 data := (took_init.update data).final

/-- A key is copied to the front of zeroes. -/
theorem copied_zeros (k : Bytes) :
    copied (replicate 64 0) 0 k = k ++ replicate (64 - k.length) 0 := by
  rw [copied, take_zero, nil_append, Nat.zero_add, drop_replicate]

/-- **The keyed hash is that of the standard**, for a key of any length. -/
theorem hmacSha256_eq (key a b : Bytes) :
    hmacSha256 key a b = Sha2.hmac Sha2.sha256 64 key (a ++ b) := by
  have hkey : (if 64 < key.length then copied (replicate 64 0) 0 (sha256 key)
      else copied (replicate 64 0) 0 key) =
      (if 64 < key.length then Sha2.sha256 key else key) ++
        replicate (64 - (if 64 < key.length then Sha2.sha256 key else key).length) 0 := by
    split
    · rw [sha256_eq, copied_zeros]
    · rw [copied_zeros]
  have hdata : ∀ pad : Bytes, sha256Final (if b.length ≠ 0
      then sha256Update (sha256Update (sha256Update sha256Init pad) a) b
      else sha256Update (sha256Update sha256Init pad) a) = Sha2.sha256 (pad ++ (a ++ b)) := by
    intro pad
    have hpad := (took_init.update pad).update a
    split
    · rw [(hpad.update b).final, nil_append, append_assoc]
    · next hb =>
      have hnil : b = [] := length_eq_zero_iff.mp (not_not.mp hb)
      rw [hpad.final, hnil, append_nil, nil_append]
  unfold hmacSha256 Sha2.hmac
  dsimp only
  rw [hkey, hdata, ((took_init.update _).update _).final, nil_append]

/-- **SHA-256 and HMAC.**  The hash of data in any pieces is that of FIPS 180-4, and the keyed hash
that of RFC 2104. -/
theorem sha256_sound :
    (∀ pieces : List Bytes, sha256Final (pieces.foldl sha256Update sha256Init) =
      Sha2.sha256 pieces.flatten) ∧
    (∀ data : Bytes, sha256 data = Sha2.sha256 data) ∧
    ∀ key a b : Bytes, hmacSha256 key a b = Sha2.hmac Sha2.sha256 64 key (a ++ b) :=
  ⟨fun pieces => (took_pieces took_init pieces).final, sha256_eq, hmacSha256_eq⟩

example : (sha256 [0x61, 0x62, 0x63]).take 4 = [0xba, 0x78, 0x16, 0xbf] := by decide +kernel

end Hassmic.Hash
