import Hassmic.Lib.Word
import Mathlib.Algebra.Order.Round
import Mathlib.Analysis.Real.Sqrt

/-!
# Square roots bit by bit

The root of a number is found from its highest digit down.  What is left of the number is kept
beside the root, and the root itself is kept shifted, so that one sum tells whether the next digit
is set.

## Main definitions

* `Root.loop` — the loop, in words that do not wrap.
* `Root.Part` — how far the root is known.

## Main results

* `Root.loop_eq` — the loop ends with the root rounded down and what is left.
* `Root.round_sqrt` — the nearest integer to a root, by what is left.
-/

namespace Root

/-- So many turns, each of which settles a digit of the root: what is left of the number, and the
root. -/
def loop (w : ℕ) : ℕ → ℕ → ℕ → ℕ → Option (ℕ × ℕ)
  | 0, num, res, _ => some (num, res)
  | it + 1, num, res, bit => do
      let sum ← Word.fit w (res + bit)
      if sum ≤ num then
        let next ← Word.fit w (res / 2 + bit)
        loop w it (num - sum) next (bit / 4)
      else loop w it num (res / 2) (bit / 4)

/-- The digits `r` of the root of `x` are known, with `j` more to come, of `n` in all. -/
structure Part (n x j r num res : ℕ) : Prop where
  num_eq : num + r ^ 2 = x
  res_eq : res = r * 2 ^ j
  lt : x < (r + 2 ^ j) ^ 2
  le : r + 2 ^ j ≤ 2 ^ n

variable {w n x j r num res : ℕ}

/-- The sum tells whether the next digit is set. -/
theorem sum_eq (r j : ℕ) : (r * 2 ^ (j + 1) + 4 ^ j) + r ^ 2 = (r + 2 ^ j) ^ 2 := by
  have hfour : 4 ^ j = 2 ^ j * 2 ^ j := by rw [← Nat.mul_pow]
  rw [hfour, Nat.pow_succ]
  ring

/-- A digit that is set. -/
theorem Part.set (h : Part n x (j + 1) r num res) (hsum : res + 4 ^ j ≤ num) :
    Part n x j (r + 2 ^ j) (num - (res + 4 ^ j)) (res / 2 + 4 ^ j) := by
  have hsq := sum_eq r j
  rw [← h.res_eq] at hsq
  have hnum := h.num_eq
  have hhalf : res / 2 = r * 2 ^ j := by
    rw [h.res_eq, Nat.pow_succ, ← Nat.mul_assoc, Nat.mul_div_cancel _ (by decide)]
  have hfour : 4 ^ j = 2 ^ j * 2 ^ j := by rw [← Nat.mul_pow]
  have htwo : r + 2 ^ j + 2 ^ j = r + 2 ^ (j + 1) := by rw [Nat.pow_succ]; ring
  refine ⟨by omega, ?_, ?_, ?_⟩
  · rw [hhalf, hfour]
    ring
  · rw [htwo]
    exact h.lt
  · rw [htwo]
    exact h.le

/-- A digit that is clear. -/
theorem Part.clear (h : Part n x (j + 1) r num res) (hsum : ¬ res + 4 ^ j ≤ num) :
    Part n x j r num (res / 2) := by
  have hsq := sum_eq r j
  rw [← h.res_eq] at hsq
  have hnum := h.num_eq
  have hle := h.le
  have hpow : 2 ^ (j + 1) = 2 ^ j + 2 ^ j := by rw [Nat.pow_succ]; ring
  have hpos : 0 < 2 ^ j := Nat.pow_pos (by decide)
  refine ⟨h.num_eq, ?_, by omega, by omega⟩
  rw [h.res_eq, Nat.pow_succ, ← Nat.mul_assoc, Nat.mul_div_cancel _ (by decide)]

/-- No sum wraps. -/
theorem Part.sum_lt (h : Part n x (j + 1) r num res) (hw : 2 * n ≤ w) : res + 4 ^ j < 2 ^ w := by
  have hsq := sum_eq r j
  rw [← h.res_eq] at hsq
  have hpow : 2 ^ (j + 1) = 2 ^ j + 2 ^ j := by rw [Nat.pow_succ]; ring
  have hlt : r + 2 ^ j < 2 ^ n := by
    have hle := h.le
    have hpos : 0 < 2 ^ j := Nat.pow_pos (by decide)
    omega
  calc res + 4 ^ j ≤ (r + 2 ^ j) ^ 2 := by omega
    _ < (2 ^ n) ^ 2 := Nat.pow_lt_pow_left hlt (by decide)
    _ = 2 ^ (2 * n) := by rw [← Nat.pow_mul, Nat.mul_comm]
    _ ≤ 2 ^ w := Nat.pow_le_pow_right (by decide) hw

/-- Nor is the half of it too large. -/
theorem Part.half_lt (h : Part n x (j + 1) r num res) (hw : 2 * n ≤ w) :
    res / 2 + 4 ^ j < 2 ^ w := by
  have hsum := h.sum_lt hw
  omega

/-- The root of all digits. -/
theorem Part.end (h : Part n x 0 r num res) : num = x - Nat.sqrt x ^ 2 ∧ res = Nat.sqrt x := by
  have hnum := h.num_eq
  have hsqrt : r = Nat.sqrt x := by
    rw [Nat.eq_sqrt']
    exact ⟨by omega, h.lt⟩
  rw [← hsqrt]
  refine ⟨by omega, ?_⟩
  rw [h.res_eq, Nat.pow_zero, Nat.mul_one]

/-- The turns that are left, from what is known by then. -/
theorem loop_part (hw : 2 * n ≤ w) (h : Part n x j r num res) :
    loop w j num res (4 ^ j / 4) = some (x - Nat.sqrt x ^ 2, Nat.sqrt x) := by
  induction j generalizing r num res with
  | zero =>
    obtain ⟨hnum, hres⟩ := h.end
    rw [loop, hnum, hres]
  | succ j ih =>
    have hbit : 4 ^ (j + 1) / 4 = 4 ^ j := by
      rw [Nat.pow_succ, Nat.mul_div_cancel _ (by decide)]
    rw [loop, hbit, Word.fit_eq (h.sum_lt hw)]
    simp only [Option.bind_eq_bind, Option.bind_some]
    split
    · next hsum =>
      rw [Word.fit_eq (h.half_lt hw), Option.bind_some]
      exact ih (h.set hsum)
    · next hsum => exact ih (h.clear hsum)

/-- **The loop ends with the root rounded down and what is left**, for a number of no more than
twice as many digits as there are turns, and words that hold these. -/
theorem loop_eq (hw : 2 * n ≤ w) (hx : x < 4 ^ n) :
    loop w n x 0 (4 ^ n / 4) = some (x - Nat.sqrt x ^ 2, Nat.sqrt x) := by
  refine loop_part (r := 0) hw ⟨by omega, by omega, ?_, by omega⟩
  rw [Nat.zero_add, ← Nat.pow_mul, Nat.mul_comm, Nat.pow_mul]
  exact hx

/-- **The nearest integer to a root** is the one above where what is left is more than the root. -/
theorem round_sqrt (x : ℕ) :
    round (√(x : ℝ)) = if Nat.sqrt x < x - Nat.sqrt x ^ 2 then (Nat.sqrt x : ℤ) + 1
      else Nat.sqrt x := by
  have hsq := Nat.sqrt_le' x
  have hroot : √(x : ℝ) ^ 2 = x := Real.sq_sqrt (Nat.cast_nonneg x)
  have hnonneg := Real.sqrt_nonneg (x : ℝ)
  rw [round_eq]
  split
  · next h =>
    have hnext : ((Nat.sqrt x ^ 2 + Nat.sqrt x + 1 : ℕ) : ℝ) ≤ x := by exact_mod_cast (by omega)
    have hlt := Real.real_sqrt_lt_nat_sqrt_succ (a := x)
    rw [Int.floor_eq_iff]
    push_cast at hnext ⊢
    constructor
    · nlinarith
    · linarith
  · next h =>
    have hnext : (x : ℝ) ≤ ((Nat.sqrt x ^ 2 + Nat.sqrt x : ℕ) : ℝ) := by exact_mod_cast (by omega)
    have hle := Real.nat_sqrt_le_real_sqrt (a := x)
    rw [Int.floor_eq_iff]
    push_cast at hnext ⊢
    constructor
    · linarith
    · nlinarith

end Root
