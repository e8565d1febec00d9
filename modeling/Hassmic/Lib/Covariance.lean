import Mathlib.Algebra.QuadraticDiscriminant
import Mathlib.Tactic.LinearCombination
import Mathlib.Tactic.Positivity
import Mathlib.Tactic.Ring

/-!
# Covariances of two quantities

A symmetric two by two matrix over an ordered field, for an offset and a drift that are known with
some error, and what an estimator does with it: the offset drifts for a while, the drift grows less
certain, everything is forgotten by a factor, and a measurement of the offset comes in.

## Main definitions

* `Cov` — the three entries.
* `Cov.form` — the quadratic form, the variance of a combination of the two.
* `Cov.Psd` — positive semidefinite: no variance is negative, the correlation is at most one.
* `Cov.drifted`, `Cov.blurred`, `Cov.scaled`, `Cov.measured` — what an estimator does.

## Main results

* `Cov.psd_iff_form` — **positive semidefinite is that the form is nowhere negative**.
* `Cov.Psd.measured` — a measurement keeps it so, with any gain up to the optimal one.
-/

/-- The variance of the offset, its covariance with the drift, the variance of the drift. -/
structure Cov (K : Type*) where
  oo : K
  od : K
  dd : K
  deriving DecidableEq

namespace Cov

variable {K : Type*} [Field K]

/-- The quadratic form. -/
def form (P : Cov K) (x y : K) : K := P.oo * (x * x) + 2 * P.od * (x * y) + P.dd * (y * y)

/-- The offset drifts for a time `t`. -/
def drifted (t : K) (P : Cov K) : Cov K where
  oo := P.oo + 2 * P.od * t + P.dd * t * t
  od := P.od + P.dd * t
  dd := P.dd

/-- The drift is less certain by `q`. -/
def blurred (q : K) (P : Cov K) : Cov K := { P with dd := P.dd + q }

/-- Everything less certain by the factor `c`. -/
def scaled (c : K) (P : Cov K) : Cov K := ⟨P.oo * c, P.od * c, P.dd * c⟩

/-- The offset was measured; `u` is one over the variance of the measurement's deviation. -/
def measured (u : K) (P : Cov K) : Cov K where
  oo := P.oo - P.oo * u * P.oo
  od := P.od - P.od * u * P.oo
  dd := P.dd - P.od * u * P.od

theorem form_drifted (t : K) (P : Cov K) (x y : K) :
    (P.drifted t).form x y = P.form x (t * x + y) := by
  unfold form drifted
  ring

theorem form_blurred (q : K) (P : Cov K) (x y : K) :
    (P.blurred q).form x y = P.form x y + q * (y * y) := by
  unfold form blurred
  ring

theorem form_scaled (c : K) (P : Cov K) (x y : K) : (P.scaled c).form x y = P.form x y * c := by
  unfold form scaled
  ring

/-! ### Positive semidefinite -/

variable [LinearOrder K] [IsStrictOrderedRing K]

/-- Positive semidefinite. -/
structure Psd (P : Cov K) : Prop where
  oo : 0 ≤ P.oo
  dd : 0 ≤ P.dd
  od : P.od ^ 2 ≤ P.oo * P.dd

variable {P : Cov K}

/-- A quantity without variance has no covariance. -/
theorem Psd.od_eq_zero (h : P.Psd) (hoo : P.oo = 0) : P.od = 0 := by
  have hle : P.od ^ 2 ≤ 0 := by
    have hod := h.od
    rwa [hoo, zero_mul] at hod
  exact pow_eq_zero_iff two_ne_zero |>.mp (le_antisymm hle (sq_nonneg P.od))

theorem Psd.form_nonneg (h : P.Psd) (x y : K) : 0 ≤ P.form x y := by
  rcases h.oo.eq_or_lt with hoo | hoo
  · -- only the drift varies
    have hform : P.form x y = P.dd * (y * y) := by
      unfold form
      rw [← hoo, h.od_eq_zero hoo.symm]
      ring
    rw [hform]
    exact mul_nonneg h.dd (mul_self_nonneg y)
  · -- completing the square
    have hsquare : P.oo * P.form x y = (P.oo * x + P.od * y) ^ 2 +
        (P.oo * P.dd - P.od ^ 2) * y ^ 2 := by
      unfold form
      ring
    have hdet : 0 ≤ P.oo * P.dd - P.od ^ 2 := sub_nonneg.mpr h.od
    have hnonneg : 0 ≤ P.oo * P.form x y := by
      rw [hsquare]
      positivity
    exact nonneg_of_mul_nonneg_right hnonneg hoo

/-- **Positive semidefinite is that the form is nowhere negative.** -/
theorem psd_iff_form : P.Psd ↔ ∀ x y, 0 ≤ P.form x y := by
  constructor
  · intro h
    exact h.form_nonneg
  · intro h
    refine ⟨?_, ?_, ?_⟩
    · have hx := h 1 0
      unfold form at hx
      linear_combination hx
    · have hy := h 0 1
      unfold form at hy
      linear_combination hy
    · -- a polynomial that is never negative has no two roots
      have hdiscr : discrim P.oo (2 * P.od) P.dd ≤ 0 := by
        apply discrim_le_zero
        intro x
        have hx := h x 1
        unfold form at hx
        linear_combination hx
      unfold discrim at hdiscr
      linear_combination (1 / 4 : K) * hdiscr

/-! ### What an estimator does -/

theorem Psd.drifted (h : P.Psd) (t : K) : (P.drifted t).Psd := by
  rw [psd_iff_form]
  intro x y
  rw [form_drifted]
  exact h.form_nonneg x (t * x + y)

theorem Psd.blurred (h : P.Psd) {q : K} (hq : 0 ≤ q) : (P.blurred q).Psd := by
  rw [psd_iff_form]
  intro x y
  rw [form_blurred]
  exact add_nonneg (h.form_nonneg x y) (mul_nonneg hq (mul_self_nonneg y))

theorem Psd.scaled (h : P.Psd) {c : K} (hc : 0 ≤ c) : (P.scaled c).Psd := by
  rw [psd_iff_form]
  intro x y
  rw [form_scaled]
  exact mul_nonneg (h.form_nonneg x y) hc

/-- **A measurement keeps it so**, with any gain up to the optimal one. -/
theorem Psd.measured (h : P.Psd) {u : K} (hle : P.oo * u ≤ 1) : (P.measured u).Psd := by
  have hrest : 0 ≤ 1 - P.oo * u := sub_nonneg.mpr hle
  have hoo : (P.measured u).oo = P.oo * (1 - P.oo * u) := by
    unfold Cov.measured
    ring
  have hod : (P.measured u).od = P.od * (1 - P.oo * u) := by
    unfold Cov.measured
    ring
  have hgain : P.od ^ 2 * u ≤ P.dd := by
    rcases h.oo.eq_or_lt with hzero | hpos
    · rw [h.od_eq_zero hzero.symm]
      linear_combination h.dd
    · have hscaled : P.oo * (P.od ^ 2 * u) ≤ P.oo * P.dd := by
        calc P.oo * (P.od ^ 2 * u) = P.od ^ 2 * (P.oo * u) := by ring
          _ ≤ P.od ^ 2 * 1 := mul_le_mul_of_nonneg_left hle (sq_nonneg P.od)
          _ = P.od ^ 2 := mul_one _
          _ ≤ P.oo * P.dd := h.od
      exact le_of_mul_le_mul_left hscaled hpos
  refine ⟨?_, ?_, ?_⟩
  · rw [hoo]
    exact mul_nonneg h.oo hrest
  · unfold Cov.measured
    linear_combination hgain
  · -- the determinant shrinks by the same factor as the offset's variance
    rw [hoo, hod]
    have hdet : (P.od * (1 - P.oo * u)) ^ 2 =
        P.oo * (1 - P.oo * u) * (P.measured u).dd - (1 - P.oo * u) * (P.oo * P.dd - P.od ^ 2) := by
      unfold Cov.measured
      ring
    rw [hdet]
    exact sub_le_self _ (mul_nonneg hrest (sub_nonneg.mpr h.od))

end Cov
