import Hassmic.Lib.Bytes

/-!
# Bit fields of a byte string

A byte string is also a string of bits, each byte from its highest bit down.  A field of it is the
number that some of these bits in a row make, and a layout is a list of fields that follow one
another, each with a name, a width and a value.  Fields are told by single bits: what sets the bits
of a field to the bits of a value makes the field that value, and what leaves the bits of a field
alone leaves the field alone.

## Main definitions

* `Bits.bitAt`, `Bits.field` — a bit, and the number that bits in a row make.
* `Bits.setBit` — a byte string with one more bit set.
* `Bits.Reads` — a layout's values stand one after another from a position on.

## Main results

* `Bits.bitAt_setBit` — setting a bit sets that bit, and no other.
* `Bits.getD_eq_of_bits` — a byte is known by its bits.
* `Bits.field_eq_of_bits` — a field is known by its bits.
* `Bits.Reads.congr` — a layout is kept by what leaves its bits alone.
-/

namespace Bits

open List

/-! ### Bits -/

/-- Bit `i` of a byte string; the bits of a byte go from its highest down. -/
def bitAt (p : Bytes) (i : ℕ) : Bool := (p.getD (i / 8) 0).toNat.testBit (7 - i % 8)

/-- The byte string with bit `i` set. -/
def setBit (p : Bytes) (i : ℕ) : Bytes := p.modify (i / 8) (· ||| (0x80 >>> (i % 8).toUInt8))

@[simp] theorem length_setBit (p : Bytes) (i : ℕ) : (setBit p i).length = p.length := by
  simp [setBit]

/-- The byte with one bit set, counted from the highest. -/
theorem testBit_mask {a b : ℕ} (ha : a < 8) (hb : b < 8) :
    ((0x80 : UInt8) >>> a.toUInt8).toNat.testBit (7 - b) = decide (a = b) := by
  interval_cases a <;> interval_cases b <;> rfl

/-- **Setting a bit sets that bit, and no other.** -/
theorem bitAt_setBit {p : Bytes} {i : ℕ} (hi : i / 8 < p.length) (j : ℕ) :
    bitAt (setBit p i) j = (decide (i = j) || bitAt p j) := by
  unfold bitAt setBit
  rw [getD_eq_getElem?_getD, getD_eq_getElem?_getD, getElem?_modify]
  by_cases hbyte : i / 8 = j / 8
  · rw [← hbyte, getElem?_eq_getElem hi]
    simp only [if_true, Option.map_eq_map, Option.map_some, Option.getD_some, UInt8.toNat_or,
      Nat.testBit_or]
    rw [testBit_mask (Nat.mod_lt _ (by decide)) (Nat.mod_lt _ (by decide)), Bool.or_comm]
    congr 1
    rw [decide_eq_decide]
    omega
  · have hne : i ≠ j := fun h => hbyte (h ▸ rfl)
    simp [hbyte, hne]

/-- All the bits of zeroes are clear. -/
theorem bitAt_replicate (n i : ℕ) : bitAt (List.replicate n 0) i = false := by
  unfold bitAt
  rw [getD_eq_getElem?_getD, getElem?_replicate]
  split
  · simp
  · simp

/-- A byte that is replaced changes the bits of that byte only. -/
theorem bitAt_set (p : Bytes) {k i : ℕ} (c : UInt8) (h : i / 8 ≠ k) :
    bitAt (p.set k c) i = bitAt p i := by
  unfold bitAt
  rw [getD_eq_getElem?_getD, getD_eq_getElem?_getD, getElem?_set_ne (Ne.symm h)]

/-- Bytes with the same bits are the same. -/
theorem getD_eq_of_bits {p q : Bytes} {k : ℕ} (h : ∀ i, i / 8 = k → bitAt p i = bitAt q i) :
    p.getD k 0 = q.getD k 0 := by
  apply UInt8.toNat.inj
  apply Nat.eq_of_testBit_eq
  intro j
  by_cases hj : j < 8
  · have hbit := h (8 * k + (7 - j)) (by omega)
    unfold bitAt at hbit
    rw [show (8 * k + (7 - j)) / 8 = k by omega,
      show 7 - (8 * k + (7 - j)) % 8 = j by omega] at hbit
    exact hbit
  · have hpow : 2 ^ 8 ≤ 2 ^ j := Nat.pow_le_pow_right (by decide) (by omega)
    have hp := UInt8.toNat_lt (p.getD k 0)
    have hq := UInt8.toNat_lt (q.getD k 0)
    rw [Nat.testBit_lt_two_pow (by omega), Nat.testBit_lt_two_pow (by omega)]

/-! ### Fields -/

/-- The number that the `n` bits from `pos` on make, the first of them the highest. -/
def field (p : Bytes) (pos : ℕ) : ℕ → ℕ
  | 0 => 0
  | n + 1 => 2 * field p pos n + (bitAt p (pos + n)).toNat

theorem field_lt (p : Bytes) (pos n : ℕ) : field p pos n < 2 ^ n := by
  induction n with
  | zero => exact Nat.one_pos
  | succ n ih =>
    have hbit : (bitAt p (pos + n)).toNat ≤ 1 := Bool.toNat_le _
    rw [field, Nat.pow_succ]
    omega

/-- **A field is known by its bits.** -/
theorem field_eq_of_bits {p : Bytes} {pos : ℕ} : ∀ {n v : ℕ},
    (∀ j < n, bitAt p (pos + j) = v.testBit (n - 1 - j)) → v < 2 ^ n → field p pos n = v := by
  intro n
  induction n with
  | zero =>
    intro v _ hv
    rw [field]
    omega
  | succ n ih =>
    intro v hbits hv
    have hhalf : field p pos n = v / 2 := by
      apply ih
      · intro j hj
        rw [hbits j (by omega), Nat.testBit_div_two]
        congr 1
        omega
      · rw [Nat.pow_succ] at hv
        omega
    have hlast : (bitAt p (pos + n)).toNat = v % 2 := by
      rw [hbits n (by omega), show n + 1 - 1 - n = 0 by omega, Nat.testBit_zero]
      rcases Nat.mod_two_eq_zero_or_one v with h | h <;> simp [h]
    rw [field, hhalf, hlast]
    omega

/-- A field is the same where its bits are. -/
theorem field_congr {p q : Bytes} {pos : ℕ} : ∀ {n : ℕ},
    (∀ i, pos ≤ i → i < pos + n → bitAt p i = bitAt q i) → field p pos n = field q pos n := by
  intro n
  induction n with
  | zero => exact fun _ => rfl
  | succ n ih =>
    intro h
    rw [field, field, ih fun i hlo hhi => h i hlo (by omega), h (pos + n) (by omega) (by omega)]

/-! ### Layouts -/

variable {ι : Type*}

/-- The bits that a list of fields takes. -/
def total (width : ι → ℕ) (l : List ι) : ℕ := (l.map width).sum

@[simp] theorem total_nil (width : ι → ℕ) : total width [] = 0 := rfl

@[simp] theorem total_cons (width : ι → ℕ) (x : ι) (l : List ι) :
    total width (x :: l) = width x + total width l := by
  simp [total]

/-- The fields named in the list stand one after another from `pos` on, each with its value. -/
def Reads (p : Bytes) (width value : ι → ℕ) : ℕ → List ι → Prop
  | _, [] => True
  | pos, x :: l => field p pos (width x) = value x ∧ Reads p width value (pos + width x) l

/-- **A layout is kept by what leaves its bits alone.** -/
theorem Reads.congr {p q : Bytes} {width value : ι → ℕ} : ∀ {pos : ℕ} {l : List ι},
    Reads p width value pos l →
    (∀ i, pos ≤ i → i < pos + total width l → bitAt p i = bitAt q i) →
    Reads q width value pos l := by
  intro pos l
  induction l generalizing pos with
  | nil => exact fun _ _ => trivial
  | cons x l ih =>
    intro ⟨hfield, hrest⟩ h
    rw [total_cons] at h
    refine ⟨?_, ih hrest fun i hlo hhi => h i (by omega) (by omega)⟩
    rw [← hfield]
    exact field_congr fun i hlo hhi => (h i hlo (by omega)).symm

/-- The first fields of a layout are one. -/
theorem Reads.left {p : Bytes} {width value : ι → ℕ} : ∀ {pos : ℕ} {l m : List ι},
    Reads p width value pos (l ++ m) → Reads p width value pos l := by
  intro pos l
  induction l generalizing pos with
  | nil => exact fun _ => trivial
  | cons x l ih => exact fun ⟨hfield, hrest⟩ => ⟨hfield, ih hrest⟩

end Bits
