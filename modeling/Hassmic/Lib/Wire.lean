import Hassmic.Lib.Bytes

/-!
# Bytes on the wire

What a reader and a writer of packets share: arrays of a fixed size, integers in
little-endian order, and a reader that takes pieces off the front of what is
left.  A reader of what a writer wrote gives back what was written, whatever
follows it.

## Main definitions

* `Blob n` — `n` bytes.
* `Wire.le`, `Wire.ofLe` — an integer as bytes, least significant first.
* `Wire.take`, `Wire.get64` — pieces off the front.

## Main results

* `Wire.ofLe_le` — reading an integer back.
* `Wire.take_append`, `Wire.get64_append` — reading pieces back.
-/

/-- An array of `n` bytes. -/
abbrev Blob (n : ℕ) := {b : Bytes // b.length = n}

namespace Blob

variable {n : ℕ}

/-- All bytes the same, as `memset` leaves it. -/
def fill (n : ℕ) (c : UInt8) : Blob n := ⟨List.replicate n c, by simp⟩

/-- All zero. -/
def zero (n : ℕ) : Blob n := fill n 0

/-- The first `k` bytes. -/
def first (b : Blob n) (k : ℕ) (h : k ≤ n) : Blob k :=
  ⟨b.1.take k, by rw [List.length_take, b.2]; omega⟩

/-- The `k` bytes from `i` on. -/
def slice (b : Blob n) (i k : ℕ) (h : i + k ≤ n) : Blob k :=
  ⟨(b.1.drop i).take k, by rw [List.length_take, List.length_drop, b.2]; omega⟩

/-- One array behind another. -/
def append {m : ℕ} (a : Blob n) (b : Blob m) : Blob (n + m) :=
  ⟨a.1 ++ b.1, by rw [List.length_append, a.2, b.2]⟩

end Blob

namespace Wire

/-! ### Integers -/

/-- The `k` low bytes of `v`, least significant first. -/
def le : ℕ → ℕ → Bytes
  | 0, _ => []
  | k + 1, v => (v % 256).toUInt8 :: le k (v / 256)

/-- The integer whose bytes these are, least significant first. -/
def ofLe : Bytes → ℕ
  | [] => 0
  | b :: l => b.toNat + 256 * ofLe l

@[simp] theorem length_le (k v : ℕ) : (le k v).length = k := by
  induction k generalizing v with
  | zero => rfl
  | succ k ih => rw [le, List.length_cons, ih]

theorem ofLe_le (k v : ℕ) : ofLe (le k v) = v % 256 ^ k := by
  induction k generalizing v with
  | zero => simp [le, ofLe, Nat.mod_one]
  | succ k ih =>
    have hbyte : (v % 256).toUInt8.toNat = v % 256 := by
      simp [Nat.toUInt8]
    rw [le, ofLe, ih, hbyte, pow_succ', Nat.mod_mul]

/-- An unsigned integer of 64 bits as eight bytes. -/
def put64 (v : UInt64) : Blob 8 := ⟨le 8 v.toNat, length_le 8 _⟩

/-- A signed integer of 32 bits as four bytes. -/
def put32 (v : Int32) : Blob 4 := ⟨le 4 v.toUInt32.toNat, length_le 4 _⟩

/-- The signed integer of 32 bits in four bytes. -/
def get32 (b : Blob 4) : Int32 := (UInt32.ofNat (ofLe b.1)).toInt32

theorem ofNat_put64 (v : UInt64) : UInt64.ofNat (ofLe (put64 v).1) = v := by
  have hlt : v.toNat % 256 ^ 8 = v.toNat := by
    apply Nat.mod_eq_of_lt
    exact lt_of_lt_of_eq v.toNat_lt (by norm_num)
  rw [put64, ofLe_le, hlt, UInt64.ofNat_toNat]

theorem get32_put32 (v : Int32) : get32 (put32 v) = v := by
  have hlt : v.toUInt32.toNat % 256 ^ 4 = v.toUInt32.toNat := by
    apply Nat.mod_eq_of_lt
    exact lt_of_lt_of_eq v.toUInt32.toNat_lt (by norm_num)
  rw [get32, put32, ofLe_le, hlt, UInt32.ofNat_toNat, Int32.toInt32_toUInt32]

/-! ### Taking pieces off the front -/

/-- The next `n` bytes and what is left, none if there are fewer. -/
def take (n : ℕ) (l : Bytes) : Option (Blob n × Bytes) :=
  if h : n ≤ l.length then some (⟨l.take n, by rw [List.length_take]; omega⟩, l.drop n) else none

/-- The next byte. -/
def byte (l : Bytes) : Option (UInt8 × Bytes) :=
  match l with
  | [] => none
  | b :: l => some (b, l)

/-- The next eight bytes as an integer. -/
def get64 (l : Bytes) : Option (UInt64 × Bytes) :=
  (take 8 l).map fun r => (UInt64.ofNat (ofLe r.1.1), r.2)

theorem take_append {n : ℕ} (b : Blob n) (l : Bytes) : take n (b.1 ++ l) = some (b, l) := by
  obtain ⟨b, rfl⟩ := b
  rw [take, dif_pos (by simp)]
  simp

theorem get64_append (v : UInt64) (l : Bytes) : get64 ((put64 v).1 ++ l) = some (v, l) := by
  rw [get64, take_append, Option.map_some, ofNat_put64]

end Wire
