import Hassmic.Lib.Word
import Hassmic.Mww.Quant

/-!
# A multiplier and a shift, rounded

What a layer sums up is brought to the scale of its output by a multiplier and a shift: shifted
left, multiplied by a fraction of 2³¹, and divided by a power of two.  The product is rounded to the
nearest integer with halves upwards, and what is divided with halves away from zero.  The shift to
the left is one of 32 digits without a sign: what does not fit is taken modulo 2³².

## Main definitions

* `srdhmWord`, `rdbpotWord`, `mbqmWord` — the same in words; `none` where one overflows, or is
  shifted out of range.
* `leftOf`, `rightOf`, `rounded` — the shifts, and the product and the quotient rounded.

## Main results

* `srdhm_eq`, `rdbpot_eq` — rounding of the product, and of the quotient.
* `quantizeMultiplier_range` — the multipliers and shifts that the loader works out.
* `mbqm_sound` — **nothing overflows, and the result is the rounded one**.
-/

namespace Hassmic.Mww

open Option

/-! ### In words -/

/-- `srdhm`, in words. -/
def srdhmWord (a b : ℤ) : Option ℤ :=
  if a = b ∧ a = -2 ^ 31 then some (2 ^ 31 - 1)
  else do
    let ab ← Word.signed 64 (a * b)
    let nudge : ℤ := if 0 ≤ ab then 2 ^ 30 else 1 - 2 ^ 30
    let sum ← Word.signed 64 (ab + nudge)
    Word.signed 32 (sum.tdiv (2 ^ 31))

/-- `rdbpot`, in words. -/
def rdbpotWord (x : ℤ) (e : ℕ) : Option ℤ :=
  if e < 32 then do
    let one ← Word.signed 64 (2 ^ e)
    let mask ← Word.signed 32 (one - 1)
    let rem := x % 2 ^ e
    let thr ← Word.signed 32 (mask / 2 + if x < 0 then 1 else 0)
    Word.signed 32 (x / 2 ^ e + if thr < rem then 1 else 0)
  else none

/-- `left` and `right` of `mbqm`. -/
def leftOf (shift : ℤ) : ℕ := if 0 < shift then shift.toNat else 0
def rightOf (shift : ℤ) : ℕ := if 0 < shift then 0 else (-shift).toNat

/-- `mbqm`, in words: a shift to the left keeps the lower 32 digits. -/
def mbqmWord (x q shift : ℤ) : Option ℤ :=
  if leftOf shift < 32 then do
    let high ← srdhmWord (Int.bmod (x * 2 ^ leftOf shift) (2 ^ 32)) q
    rdbpotWord high (rightOf shift)
  else none

/-! ### Rounding -/

/-- The product with `q` of 2³¹ to the nearest integer, halves upwards; divided by a power of two to
the nearest integer, halves away from zero. -/
def rounded (w q : ℤ) (right : ℕ) : ℤ :=
  Double.lround ((round ((w * q : ℚ) / 2 ^ 31) : ℚ) / 2 ^ right)

/-- The nearest integer to a fraction, halves upwards. -/
theorem floor_half (a : ℤ) {d : ℕ} (hd : 0 < d) :
    ⌊(a : ℚ) / d + 1 / 2⌋ = (2 * a + d) / (2 * d) := by
  have hcast : (d : ℚ) ≠ 0 := by exact_mod_cast hd.ne'
  have hsum : (a : ℚ) / d + 1 / 2 = ((2 * a + d : ℤ) : ℚ) / ((2 * d : ℕ) : ℚ) := by
    push_cast
    field_simp
  rw [hsum, Rat.floor_intCast_div_natCast]
  push_cast
  rfl

/-- A product of two words. -/
theorem product_bounds {w q : ℤ} (hw : -2 ^ 31 ≤ w ∧ w < 2 ^ 31) (hq : 0 ≤ q ∧ q < 2 ^ 31) :
    -2 ^ 31 * (2 ^ 31 - 1) ≤ w * q ∧ w * q ≤ (2 ^ 31 - 1) * (2 ^ 31 - 1) := by
  constructor
  · nlinarith
  · nlinarith

/-- **`srdhm` rounds the product to the nearest integer**, halves upwards, where the multiplier is
not negative. -/
theorem srdhm_eq {w q : ℤ} (hq : 0 ≤ q) :
    srdhm w q = round ((w * q : ℚ) / 2 ^ 31) ∧ srdhm w q = (w * q + 2 ^ 30) / 2 ^ 31 := by
  have hfloor : round ((w * q : ℚ) / 2 ^ 31) = (w * q + 2 ^ 30) / 2 ^ 31 := by
    have h := floor_half (w * q) (d := 2 ^ 31) (by decide)
    rw [Int.cast_mul, Nat.cast_pow, Nat.cast_ofNat] at h
    rw [round_eq, h]
    omega
  rw [hfloor, and_self]
  unfold srdhm
  rw [if_neg (by omega)]
  dsimp only
  split
  · next h => rw [Int.tdiv_eq_ediv_of_nonneg (by omega)]
  · next h =>
    have hneg : w * q + (1 - 2 ^ 30) = -(2 ^ 30 - 1 - w * q) := by ring
    rw [hneg, Int.neg_tdiv, Int.tdiv_eq_ediv_of_nonneg (by omega)]
    omega

theorem ediv_eq {n d k : ℤ} (hd : 0 < d) (hlo : k * d ≤ n) (hhi : n < (k + 1) * d) : n / d = k :=
  le_antisymm (Int.lt_add_one_iff.mp (Int.ediv_lt_of_lt_mul hd hhi)) (Int.le_ediv_of_mul_le hd hlo)

/-- **`rdbpot` rounds the quotient to the nearest integer**, halves away from zero. -/
theorem rdbpot_eq (x : ℤ) (e : ℕ) : rdbpot x e = Double.lround ((x : ℚ) / 2 ^ e) := by
  have hup := floor_half x (d := 2 ^ e) (Nat.pow_pos (by decide))
  have hdown := floor_half (-x) (d := 2 ^ e) (Nat.pow_pos (by decide))
  have hsign : (x : ℚ) / 2 ^ e < 0 ↔ x < 0 := by
    rw [div_lt_iff₀ (by positivity), zero_mul, Int.cast_lt_zero]
  have hone : (2 : ℤ) ^ e = 1 ∨ (2 : ℤ) ^ e % 2 = 0 := by
    cases e with
    | zero => exact .inl rfl
    | succ e => rw [pow_succ]; omega
  push_cast at hup hdown
  unfold rdbpot Double.lround
  rw [← neg_div, hup, hdown]
  simp only [hsign]
  have hpos : (0 : ℤ) < 2 ^ e := pow_pos (by decide) e
  generalize (2 : ℤ) ^ e = d at hone hpos ⊢
  have hsplit := Int.mul_ediv_add_emod x d
  have hrem := Int.emod_nonneg x hpos.ne'
  have hlt := Int.emod_lt_of_pos x hpos
  generalize x / d = a at hsplit ⊢
  generalize x % d = r at hsplit hrem hlt ⊢
  by_cases hx : x < 0
  · rw [if_pos hx, if_pos hx]
    split
    · next h =>
      have hmore : d < 2 * r := by omega
      rw [ediv_eq (k := -a - 1) (by omega) (by linarith) (by linarith)]
      ring
    · next h =>
      have hless : 2 * r ≤ d := by omega
      rw [ediv_eq (k := -a) (by omega) (by linarith) (by linarith)]
      ring
  · rw [if_neg hx, if_neg hx]
    split
    · next h =>
      have hmore : d ≤ 2 * r := by omega
      rw [ediv_eq (k := a + 1) (by omega) (by linarith) (by linarith)]
    · next h =>
      have hless : 2 * r < d := by omega
      rw [ediv_eq (k := a) (by omega) (by linarith) (by linarith), add_zero]

/-! ### Nothing overflows -/

/-- No product overflows. -/
theorem srdhmWord_eq {w q : ℤ} (hw : -2 ^ 31 ≤ w ∧ w < 2 ^ 31) (hq : 0 ≤ q ∧ q < 2 ^ 31) :
    srdhmWord w q = some (srdhm w q) ∧ -2 ^ 31 ≤ srdhm w q ∧ srdhm w q < 2 ^ 31 := by
  have hproduct := product_bounds hw hq
  have hresult := (srdhm_eq (w := w) hq.1).2
  have hbounds : -2 ^ 31 ≤ srdhm w q ∧ srdhm w q < 2 ^ 31 := by omega
  refine ⟨?_, hbounds⟩
  unfold srdhm at hbounds
  unfold srdhmWord srdhm
  rw [if_neg (by omega)] at hbounds
  rw [if_neg (by omega), if_neg (by omega), Word.signed_eq (by omega) (by omega)]
  simp only [bind_eq_bind, bind_some]
  rw [Word.signed_eq (by split <;> omega) (by split <;> omega), bind_some,
    Word.signed_eq hbounds.1 hbounds.2]

/-- No quotient overflows. -/
theorem rdbpotWord_eq {x : ℤ} (hx : -2 ^ 31 ≤ x ∧ x < 2 ^ 31) {e : ℕ} (he : e < 32) :
    rdbpotWord x e = some (rdbpot x e) := by
  have hpos : (0 : ℤ) < 2 ^ e := pow_pos (by decide) e
  have hle : (2 : ℤ) ^ e ≤ 2 ^ 31 := pow_le_pow_right₀ (by decide) (by omega)
  unfold rdbpotWord rdbpot
  rw [if_pos he]
  generalize (2 : ℤ) ^ e = d at hpos hle ⊢
  have hrem := Int.emod_nonneg x hpos.ne'
  have hlt := Int.emod_lt_of_pos x hpos
  have hquot : -2 ^ 31 ≤ x / d ∧ x / d < 2 ^ 31 :=
    ⟨Int.le_ediv_of_mul_le hpos (by nlinarith), Int.ediv_lt_of_lt_mul hpos (by nlinarith)⟩
  -- one more only where something was divided
  have hnext : (d - 1) / 2 + (if x < 0 then 1 else 0) < x % d → x / d + 1 < 2 ^ 31 := by
    intro h
    have htwo : 2 ≤ d := by
      split at h <;> omega
    have hhalf : x / d < 2 ^ 30 := Int.ediv_lt_of_lt_mul hpos (by nlinarith)
    omega
  rw [Word.signed_eq (by omega) (by omega)]
  simp only [bind_eq_bind, bind_some]
  rw [Word.signed_eq (by omega) (by omega), bind_some,
    Word.signed_eq (by split <;> omega) (by split <;> omega), bind_some]
  by_cases h : (d - 1) / 2 + (if x < 0 then 1 else 0) < x % d
  · have hbound := hnext h
    rw [if_pos h, Word.signed_eq (by omega) hbound]
  · rw [if_neg h, Word.signed_eq (by omega) (by omega)]

/-- **The loader's multipliers and shifts.** -/
theorem quantizeMultiplier_range {m : ℚ} (hm : 0 ≤ m) :
    (0 ≤ (quantizeMultiplier m).1 ∧ (quantizeMultiplier m).1 < 2 ^ 31) ∧
      -31 ≤ (quantizeMultiplier m).2 ∧ (quantizeMultiplier m).2 ≤ 30 := by
  unfold quantizeMultiplier
  split
  · decide
  · next hne =>
    have hpos : 0 < m := lt_of_le_of_ne hm (Ne.symm hne)
    have hlo := Int.zpow_log_le_self (b := 2) (r := |m|) (by norm_num) (abs_pos.mpr hne)
    have hhi := Int.lt_zpow_succ_log_self (b := 2) (by norm_num) |m|
    rw [abs_of_pos hpos] at hlo hhi ⊢
    push_cast at hlo hhi
    generalize Int.log 2 m = k at hlo hhi ⊢
    have hfrac : 0 ≤ m / 2 ^ (k + 1) ∧ m / 2 ^ (k + 1) < 1 :=
      ⟨by positivity, by rw [div_lt_one (by positivity)]; exact hhi⟩
    have hq : 0 ≤ Double.lround (m / 2 ^ (k + 1) * 2 ^ 31) ∧
        Double.lround (m / 2 ^ (k + 1) * 2 ^ 31) ≤ 2 ^ 31 := by
      unfold Double.lround
      rw [if_neg (by nlinarith)]
      refine ⟨Int.floor_nonneg.mpr (by nlinarith), ?_⟩
      rw [← Int.lt_add_one_iff, Int.floor_lt]
      push_cast
      nlinarith
    dsimp only
    generalize Double.lround (m / 2 ^ (k + 1) * 2 ^ 31) = q at hq ⊢
    split_ifs <;> dsimp only <;> omega

/-! ### The multiplication -/

/-- **Nothing overflows, and the result is the rounded one**: of the number shifted to the left, as
an integer of 32 digits, which is the number itself times a power of two where that is one. -/
theorem mbqm_sound :
    (∀ m : ℚ, 0 ≤ m → (0 ≤ (quantizeMultiplier m).1 ∧ (quantizeMultiplier m).1 < 2 ^ 31) ∧
      -31 ≤ (quantizeMultiplier m).2 ∧ (quantizeMultiplier m).2 ≤ 30) ∧
    ∀ x q shift : ℤ, -2 ^ 31 ≤ x ∧ x < 2 ^ 31 → 0 ≤ q ∧ q < 2 ^ 31 → -31 ≤ shift ∧ shift ≤ 30 →
      mbqmWord x q shift = some (mbqm x q shift) ∧
      mbqm x q shift = rounded (Int.bmod (x * 2 ^ leftOf shift) (2 ^ 32)) q (rightOf shift) ∧
      (-2 ^ 31 ≤ x * 2 ^ leftOf shift ∧ x * 2 ^ leftOf shift < 2 ^ 31 →
        mbqm x q shift = rounded (x * 2 ^ leftOf shift) q (rightOf shift)) := by
  refine ⟨fun m hm => quantizeMultiplier_range hm, fun x q shift _ hq hs => ?_⟩
  have hleft : leftOf shift < 32 := by unfold leftOf; split <;> omega
  have hright : rightOf shift < 32 := by unfold rightOf; split <;> omega
  have hmbqm : mbqm x q shift =
      rdbpot (srdhm (Int.bmod (x * 2 ^ leftOf shift) (2 ^ 32)) q) (rightOf shift) := rfl
  have hwrap : -2 ^ 31 ≤ Int.bmod (x * 2 ^ leftOf shift) (2 ^ 32) ∧
      Int.bmod (x * 2 ^ leftOf shift) (2 ^ 32) < 2 ^ 31 := by
    have hlo := Int.le_bmod (x := x * 2 ^ leftOf shift) (m := 2 ^ 32) (by decide)
    have hhi := Int.bmod_lt (x := x * 2 ^ leftOf shift) (m := 2 ^ 32) (by decide)
    norm_num at hlo hhi ⊢
    exact ⟨hlo, hhi⟩
  obtain ⟨hhigh, hbounds⟩ := srdhmWord_eq hwrap hq
  have hrounded : mbqm x q shift = rounded (Int.bmod (x * 2 ^ leftOf shift) (2 ^ 32))
      q (rightOf shift) := by
    rw [hmbqm, rdbpot_eq, (srdhm_eq hq.1).1]
    rfl
  refine ⟨?_, hrounded, fun hfits => ?_⟩
  · unfold mbqmWord
    rw [if_pos hleft, hhigh, bind_eq_bind, bind_some, rdbpotWord_eq hbounds hright, hmbqm]
  · rw [hrounded, Int.bmod_eq_of_le (by norm_num at hfits ⊢; exact hfits.1)
      (by norm_num at hfits ⊢; exact hfits.2)]

/-- A half of three, rounded, and shifted by two. -/
theorem mbqm_sound_three :
    mbqmWord 3 (2 ^ 30) (-2) = some (mbqm 3 (2 ^ 30) (-2)) ∧
    mbqm 3 (2 ^ 30) (-2) = rounded (Int.bmod (3 * 2 ^ leftOf (-2)) (2 ^ 32)) (2 ^ 30)
      (rightOf (-2)) ∧
    (-2 ^ 31 ≤ 3 * 2 ^ leftOf (-2) ∧ 3 * 2 ^ leftOf (-2) < (2 : ℤ) ^ 31 →
      mbqm 3 (2 ^ 30) (-2) = rounded (3 * 2 ^ leftOf (-2)) (2 ^ 30) (rightOf (-2))) :=
  mbqm_sound.2 3 (2 ^ 30) (-2) (by decide) (by decide) (by decide)

/-- A number that does not fit after a shift to the left. -/
theorem mbqm_wraps :
    mbqm (2 ^ 30) (2 ^ 30) 1 = -2 ^ 30 ∧ rounded (2 ^ 30 * 2 ^ leftOf 1) (2 ^ 30)
      (rightOf 1) = 2 ^ 30 := by
  decide +kernel

end Hassmic.Mww
