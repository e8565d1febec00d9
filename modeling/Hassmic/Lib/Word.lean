import Mathlib.Data.Int.Basic
import Mathlib.Data.Nat.Size
import Mathlib.Tactic.Ring

/-!
# Words that do not wrap

Integers of a fixed number of binary digits.  A result that does not fit, a difference that would be
below zero, and a shift by as many digits as there are or more, stop the computation: one that comes
to its end has done none of these.

## Main definitions

* `Word.fit`, `Word.sub`, `Word.shl` — words without a sign.
* `Word.ofInt`, `Word.signed` — an integer as a word without a sign, and as one with a sign.

## Main results

* `Word.fit_eq`, `Word.sub_eq`, `Word.shl_eq`, `Word.ofInt_eq`, `Word.signed_eq` — results that fit.
-/

namespace Word

/-- A result of `w` digits. -/
def fit (w n : ℕ) : Option ℕ := if n < 2 ^ w then some n else none

/-- A difference that is not below zero. -/
def sub (a b : ℕ) : Option ℕ := if b ≤ a then some (a - b) else none

/-- `a << k`, with no digit lost. -/
def shl (w a k : ℕ) : Option ℕ := if k < w then fit w (a * 2 ^ k) else none

/-- An integer as a word without a sign. -/
def ofInt (w : ℕ) (x : ℤ) : Option ℕ := if 0 ≤ x then fit w x.toNat else none

/-- A result of `w` digits, one of them for the sign. -/
def signed (w : ℕ) (x : ℤ) : Option ℤ := if -2 ^ (w - 1) ≤ x ∧ x < 2 ^ (w - 1) then some x else none

section

variable {w n a b k : ℕ} {x : ℤ}

theorem fit_eq (h : n < 2 ^ w) : fit w n = some n := if_pos h

theorem sub_eq (h : b ≤ a) : sub a b = some (a - b) := if_pos h

theorem shl_eq (hk : k < w) (h : a * 2 ^ k < 2 ^ w) : shl w a k = some (a * 2 ^ k) := by
  rw [shl, if_pos hk, fit_eq h]

theorem ofInt_eq (h : n < 2 ^ w) : ofInt w n = some n := by
  rw [ofInt, if_pos (Int.natCast_nonneg n), Int.toNat_natCast, fit_eq h]

theorem signed_eq (hlo : -2 ^ (w - 1) ≤ x) (hhi : x < 2 ^ (w - 1)) : signed w x = some x :=
  if_pos ⟨hlo, hhi⟩

end

end Word
