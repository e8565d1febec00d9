import Hassmic.Lib.Root

/-!
# Roots and logarithms of the wake-word features

The features of a window are the square roots of its energies, evened out, on the scale of a
logarithm.  Both are worked out in integers as the microfrontend that the models were trained with
does, digit for digit: the root of a number below 2³² is one of 16 digits, and the table of the
logarithm is read with the slope of its segments taken 2⁹ times too small, so that there is a step
at the end of a segment.

## Main definitions

* `sqrt32`, `sqrt64` — square roots; `none` where a word would wrap.
* `logLut`, `logScaled` — the logarithm; `none` where a word would wrap, or the table is left.
* `position` — a number's place on the scale of the table, 128 segments of 512 to an octave.

## Main results

* `sqrt32_eq`, `sqrt64_eq` — the nearest integer to the root, but for the largest.
* `logScaled_eq` — the logarithm from the place.
* `features_sound` — **roots and logarithms**.
-/

namespace Hassmic.Mww

open Option

/-! ### Roots -/

/-- `msb32`, `msb64`: how many binary digits a number has. -/
def msb (x : ℕ) : ℕ := Nat.size x

/-- The root in words of `w` digits, of a number that is not zero. -/
def sqrtWord (w num : ℕ) : Option ℕ := do
  let lead ← Word.sub w (msb num)
  let high ← Word.sub (w - 1) (lead ||| 1)
  let bit ← Word.shl w 1 high
  let (num, res) ← Root.loop w (high / 2 + 1) num 0 bit
  let res ← if res < num ∧ res ≠ 2 ^ (w / 2) - 1 then Word.fit w (res + 1) else some res
  Word.fit (w / 2) res

/-- `sqrt32`. -/
def sqrt32 (num : ℕ) : Option ℕ := if num = 0 then some 0 else sqrtWord 32 num

/-- `sqrt64`. -/
def sqrt64 (num : ℕ) : Option ℕ := if num / 2 ^ 32 = 0 then sqrt32 num else sqrtWord 64 num

/-- The lowest digit set. -/
theorem lor_one : ∀ a < 64, a ||| 1 = a / 2 * 2 + 1 := by decide

theorem sqrtWord_eq {m num : ℕ} (hm : m ≤ 32) (hpos : num ≠ 0) (hnum : num < 2 ^ (2 * m)) :
    ∃ r, sqrtWord (2 * m) num = some r ∧ (r : ℤ) = min (round √(num : ℝ)) (2 ^ m - 1) := by
  -- the highest digit of the root is the one of the first bit
  have hsize : msb num ≤ 2 * m := Nat.size_le.mpr hnum
  have hone : 0 < msb num := Nat.size_pos.mpr (Nat.pos_of_ne_zero hpos)
  obtain ⟨n, hn⟩ : ∃ n, (msb num + 1) / 2 = n + 1 := ⟨(msb num + 1) / 2 - 1, by omega⟩
  have hlead : (2 * m - msb num) ||| 1 = 2 * m - 1 - 2 * n := by
    rw [lor_one _ (by omega)]
    omega
  have hhigh : 2 * m - 1 - (2 * m - 1 - 2 * n) = 2 * n := by omega
  have hturns : 2 * n / 2 + 1 = n + 1 := by omega
  have hbit : 1 * 2 ^ (2 * n) = 4 ^ (n + 1) / 4 := by
    rw [Nat.one_mul, Nat.pow_mul, Nat.pow_succ 4 n, Nat.mul_div_cancel _ (by decide)]
  have hlt : num < 4 ^ (n + 1) := by
    have hself : num < 2 ^ msb num := Nat.lt_size_self num
    have hpow : (2 : ℕ) ^ msb num ≤ 2 ^ (2 * (n + 1)) := Nat.pow_le_pow_right (by decide) (by omega)
    rw [Nat.pow_mul] at hpow
    exact hself.trans_le hpow
  have hroot : Nat.sqrt num < 2 ^ m := by
    rw [Nat.sqrt_lt', ← Nat.pow_mul, Nat.mul_comm]
    exact hnum
  have hhalf : 2 * m / 2 = m := by omega
  have hwide : 2 ^ m ≤ 2 ^ (2 * m) := Nat.pow_le_pow_right (by decide) (by omega)
  unfold sqrtWord
  rw [Word.sub_eq hsize]
  simp only [bind_eq_bind, bind_some]
  rw [hlead, Word.sub_eq (by omega)]
  simp only [bind_some]
  rw [hhigh,
    Word.shl_eq (by omega) (by rw [Nat.one_mul]; exact Nat.pow_lt_pow_right (by decide) (by omega))]
  simp only [bind_some]
  rw [hturns, hbit, Root.loop_eq (by omega) hlt]
  simp only [bind_some, hhalf]
  rw [Root.round_sqrt]
  have htop : ((2 ^ m : ℕ) : ℤ) = 2 ^ m := by norm_cast
  split
  · next h =>
    rw [Word.fit_eq (by omega), bind_some, Word.fit_eq (by omega), if_pos h.1]
    exact ⟨_, rfl, by omega⟩
  · next h =>
    rw [Word.fit_eq hroot]
    refine ⟨_, rfl, ?_⟩
    split
    · omega
    · omega

/-- **`sqrt32` is the nearest integer to the root**, but for the largest. -/
theorem sqrt32_eq {x : ℕ} (hx : x < 2 ^ 32) :
    ∃ r, sqrt32 x = some r ∧ (r : ℤ) = min (round √(x : ℝ)) (2 ^ 16 - 1) := by
  unfold sqrt32
  split
  · next h =>
    refine ⟨0, rfl, ?_⟩
    rw [h, Root.round_sqrt]
    norm_num
  · next h => exact sqrtWord_eq (m := 16) (by decide) h hx

/-- **`sqrt64` is the nearest integer to the root**, but for the largest, and for the largest of a
number below 2³². -/
theorem sqrt64_eq {x : ℕ} (hx : x < 2 ^ 64) :
    ∃ r, sqrt64 x = some r ∧ (r : ℤ) = min (round √(x : ℝ))
      (if x < 2 ^ 32 then 2 ^ 16 - 1 else 2 ^ 32 - 1) := by
  unfold sqrt64
  by_cases h : x < 2 ^ 32
  · rw [if_pos (by omega), if_pos h]
    exact sqrt32_eq h
  · rw [if_neg (by omega), if_neg h]
    exact sqrtWord_eq (m := 32) (by decide) (by omega) hx

/-! ### Logarithms -/

/-- `log_lut`: how far the logarithm to the base 2 of 1 + k/128 is above k/128, times 2¹⁶. -/
def logLut : List ℤ :=
  [0, 224, 442, 654, 861, 1063, 1259, 1450, 1636, 1817, 1992, 2163, 2329, 2490, 2646, 2797,
    2944, 3087, 3224, 3358, 3487, 3611, 3732, 3848, 3960, 4068, 4172, 4272, 4368, 4460, 4549, 4633,
    4714, 4791, 4864, 4934, 5001, 5063, 5123, 5178, 5231, 5280, 5326, 5368, 5408, 5444, 5477, 5507,
    5533, 5557, 5578, 5595, 5610, 5622, 5631, 5637, 5640, 5641, 5638, 5633, 5626, 5615, 5602, 5586,
    5568, 5547, 5524, 5498, 5470, 5439, 5406, 5370, 5332, 5291, 5249, 5203, 5156, 5106, 5054, 5000,
    4944, 4885, 4825, 4762, 4697, 4630, 4561, 4490, 4416, 4341, 4264, 4184, 4103, 4020, 3935, 3848,
    3759, 3668, 3575, 3481, 3384, 3286, 3186, 3084, 2981, 2875, 2768, 2659, 2549, 2437, 2323, 2207,
    2090, 1971, 1851, 1729, 1605, 1480, 1353, 1224, 1094, 963, 830, 695, 559, 421, 282, 142, 0]

/-- `frac` of `log_scaled`: how far the number is into its octave, of 2¹⁶. -/
def logFrac (x integer : ℕ) : Option ℤ := do
  let frac ← Word.signed 32 (x - 2 ^ integer)
  if integer < 16 then Word.signed 32 (frac * 2 ^ (16 - integer))
    else some (frac / 2 ^ (integer - 16))

/-- `fraction` of `log_scaled`: the logarithm to the base 2 inside the octave. -/
def logFraction (frac : ℤ) : Option ℕ := do
  let base ← Word.ofInt 32 frac
  let base := base / 2 ^ (16 - 7)
  let unit := 2 ^ 16 / 2 ^ 7
  let c0 ← logLut[base]?
  let c1 ← logLut[base + 1]?
  let seg ← Word.fit 32 (unit * base)
  let seg ← Word.signed 32 seg
  let rel ← Word.signed 32 ((c1 - c0) * (frac - seg))
  Word.ofInt 32 (frac + c0 + rel / 2 ^ 16)

/-- `log_scaled`. -/
def logScaled (x : ℕ) : Option ℕ := do
  let integer ← Word.sub (msb x) 1
  let frac ← logFrac x integer
  let fraction ← logFraction frac
  let log2 ← Word.fit 32 (integer * 2 ^ 16 + fraction)
  let loge ← Word.fit 64 (45426 * log2 + 2 ^ 15)
  let loge ← Word.fit 32 (loge / 2 ^ 16)
  let scaled ← Word.fit 32 (loge * 2 ^ 6 + 2 ^ 15)
  return scaled / 2 ^ 16

/-- A number's place on the scale of the table: 2¹⁶ times the octave and how far it is into the
octave. -/
def position (x : ℕ) : ℕ :=
  let octave := msb x - 1
  octave * 2 ^ 16 +
    if octave < 16 then (x - 2 ^ octave) * 2 ^ (16 - octave)
    else (x - 2 ^ octave) / 2 ^ (octave - 16)

/-- The segment of a place. -/
def segment (x : ℕ) : ℕ := position x / 512

/-- The table at the start of a segment of any octave. -/
def lutAt (k : ℕ) : ℤ := logLut.getD (k % 128) 0

/-- What the table holds: its end is its start, and it goes up or down by little. -/
theorem lutAt_facts (k : ℕ) :
    (0 ≤ lutAt k ∧ lutAt k ≤ 5641) ∧
    (lutAt k - 142 ≤ lutAt (k + 1) ∧ lutAt (k + 1) ≤ lutAt k + 224) ∧
      (2 ≤ lutAt k ∨ lutAt k ≤ lutAt (k + 1)) := by
  have htable : ∀ j < 128, (0 ≤ logLut.getD j 0 ∧ logLut.getD j 0 ≤ 5641) ∧
      (logLut.getD j 0 - 142 ≤ logLut.getD ((j + 1) % 128) 0 ∧
        logLut.getD ((j + 1) % 128) 0 ≤ logLut.getD j 0 + 224) ∧
      (2 ≤ logLut.getD j 0 ∨ logLut.getD j 0 ≤ logLut.getD ((j + 1) % 128) 0) := by decide
  have h := htable (k % 128) (Nat.mod_lt _ (by decide))
  unfold lutAt
  rwa [Nat.mod_add_mod] at h

/-- The table is read inside. -/
theorem logLut_getElem {k b : ℕ} (hb : b = k % 128) :
    logLut[b]? = some (lutAt k) ∧ logLut[b + 1]? = some (lutAt (k + 1)) := by
  have htable : ∀ j < 128, logLut[j]? = some (logLut.getD j 0) ∧
      logLut[j + 1]? = some (logLut.getD ((j + 1) % 128) 0) := by decide
  have h := htable (k % 128) (Nat.mod_lt _ (by decide))
  rw [Nat.mod_add_mod] at h
  rw [hb]
  exact h

/-- What is added inside a segment, with its slope taken 2⁹ times too small. -/
def slope (k d : ℕ) : ℤ := (lutAt (k + 1) - lutAt k) * (d : ℤ)

theorem slope_bounds (k : ℕ) {d : ℕ} (hd : d < 512) :
    -142 * 511 ≤ slope k d ∧ slope k d ≤ 224 * 511 := by
  obtain ⟨-, ⟨hlo, hhi⟩, -⟩ := lutAt_facts k
  have hdown : -142 * (d : ℤ) ≤ slope k d := mul_le_mul_of_nonneg_right (by omega) (by omega)
  have hup : slope k d ≤ 224 * (d : ℤ) := mul_le_mul_of_nonneg_right (by omega) (by omega)
  omega

/-- The table with what is added is not below zero. -/
theorem lutAt_add_slope (k : ℕ) {d : ℕ} (hd : d < 512) :
    0 ≤ lutAt k + slope k d / 2 ^ 16 ∧ lutAt k + slope k d / 2 ^ 16 ≤ 5642 := by
  obtain ⟨⟨hlo, hhi⟩, -, hup⟩ := lutAt_facts k
  have hslope := slope_bounds k hd
  refine ⟨?_, by omega⟩
  rcases hup with h | h
  · omega
  · have hnonneg : 0 ≤ slope k d := mul_nonneg (by omega) (by omega)
    omega

/-- The logarithm to the base 2 at a place, times 2¹⁶. -/
def log2At (p : ℕ) : ℤ := p + (lutAt (p / 512) + slope (p / 512) (p % 512) / 2 ^ 16)

theorem log2At_bounds (p : ℕ) : (p : ℤ) ≤ log2At p ∧ log2At p ≤ p + 5642 := by
  have h := lutAt_add_slope (p / 512) (Nat.mod_lt p (by decide : 0 < 512))
  unfold log2At
  omega

/-- From the base 2 to the natural logarithm, times 2⁶. -/
def toScale (log2 : ℕ) : ℕ := ((45426 * log2 + 2 ^ 15) / 2 ^ 16 * 2 ^ 6 + 2 ^ 15) / 2 ^ 16

/-- How far into its octave a number is. -/
theorem octave_facts {x : ℕ} (hx : 2 ≤ x) (hlt : x < 2 ^ 32) :
    ∃ i f, msb x = i + 1 ∧ i < 32 ∧ 2 ^ i ≤ x ∧ x - 2 ^ i < 2 ^ 31 ∧ f < 2 ^ 16 ∧
    position x = i * 2 ^ 16 + f ∧
      f = if i < 16 then (x - 2 ^ i) * 2 ^ (16 - i) else (x - 2 ^ i) / 2 ^ (i - 16) := by
  have hsize : msb x ≤ 32 := Nat.size_le.mpr hlt
  obtain ⟨i, hi⟩ : ∃ i, msb x = i + 1 :=
    Nat.exists_eq_succ_of_ne_zero (Nat.size_pos.mpr (by omega)).ne'
  have hlo : 2 ^ i ≤ x := Nat.lt_size.mp (by rw [← msb, hi]; omega)
  have hhi : x < 2 ^ (i + 1) := by
    rw [← hi]
    exact Nat.lt_size_self x
  rw [Nat.pow_succ] at hhi
  have htop : 2 ^ i ≤ 2 ^ 31 := Nat.pow_le_pow_right (by decide) (by omega)
  refine ⟨i, _, hi, by omega, hlo, by omega, ?_, ?_, rfl⟩
  · split
    · next h =>
      have hpow : 2 ^ i * 2 ^ (16 - i) = 2 ^ 16 := by rw [← Nat.pow_add]; congr 1; omega
      calc (x - 2 ^ i) * 2 ^ (16 - i) < 2 ^ i * 2 ^ (16 - i) :=
            Nat.mul_lt_mul_of_pos_right (by omega) (Nat.pow_pos (by decide))
        _ = 2 ^ 16 := hpow
    · next h =>
      have hpow : 2 ^ 16 * 2 ^ (i - 16) = 2 ^ i := by rw [← Nat.pow_add]; congr 1; omega
      rw [Nat.div_lt_iff_lt_mul (Nat.pow_pos (by decide)), hpow]
      omega
  · unfold position
    rw [hi, Nat.add_sub_cancel]

theorem logFrac_eq {x i f : ℕ} (hlo : 2 ^ i ≤ x) (htop : x - 2 ^ i < 2 ^ 31) (hf : f < 2 ^ 16)
    (hfrac : f = if i < 16 then (x - 2 ^ i) * 2 ^ (16 - i) else (x - 2 ^ i) / 2 ^ (i - 16)) :
    logFrac x i = some (f : ℤ) := by
  have hcast : (x : ℤ) - 2 ^ i = ((x - 2 ^ i : ℕ) : ℤ) := by
    rw [Nat.cast_sub hlo]
    norm_cast
  unfold logFrac
  rw [hcast, Word.signed_eq (by omega) (by omega), bind_eq_bind, bind_some]
  split
  · next h =>
    rw [if_pos h] at hfrac
    have hf' : ((x - 2 ^ i : ℕ) : ℤ) * 2 ^ (16 - i) = f := by rw [hfrac]; norm_cast
    rw [hf', Word.signed_eq (by omega) (by omega)]
  · next h =>
    rw [if_neg h] at hfrac
    have hf' : ((x - 2 ^ i : ℕ) : ℤ) / 2 ^ (i - 16) = f := by rw [hfrac]; norm_cast
    rw [hf']

/-- **The table is read inside**, in any octave, and no word wraps on the way. -/
theorem logFraction_eq {f : ℕ} (hf : f < 2 ^ 16) {p : ℕ} (hp : p % 2 ^ 16 = f) :
    logFraction f = some (log2At p - p + f).toNat := by
  have hseg : f / 512 = p / 512 % 128 := by omega
  have hin : p % 512 = f % 512 := by omega
  obtain ⟨hc0, hc1⟩ := logLut_getElem hseg
  have hslope := slope_bounds (p / 512) (Nat.mod_lt f (by decide : 0 < 512))
  have hadd := lutAt_add_slope (p / 512) (Nat.mod_lt f (by decide : 0 < 512))
  have hlog : log2At p = p + (lutAt (p / 512) + slope (p / 512) (f % 512) / 2 ^ 16) := by
    rw [log2At, hin]
  have hdiff : (f : ℤ) - ((512 * (f / 512) : ℕ) : ℤ) = ((f % 512 : ℕ) : ℤ) := by omega
  have hslope' : (lutAt (p / 512 + 1) - lutAt (p / 512)) * ((f % 512 : ℕ) : ℤ) =
    slope (p / 512) (f % 512) := rfl
  obtain ⟨r, hr⟩ : ∃ r : ℕ, log2At p - p + f = r := Int.eq_ofNat_of_zero_le (by omega)
  have hsum : (f : ℤ) + lutAt (p / 512) + slope (p / 512) (f % 512) / 2 ^ 16 = r := by omega
  unfold logFraction
  rw [Word.ofInt_eq (by omega)]
  simp only [bind_eq_bind, bind_some, Nat.reduceSub, Nat.reducePow, Nat.reduceDiv]
  rw [hc0, hc1]
  simp only [bind_some]
  rw [Word.fit_eq (by omega), bind_some, Word.signed_eq (by omega) (by omega), bind_some, hdiff,
    hslope', Word.signed_eq (by omega) (by omega), bind_some, hsum, Word.ofInt_eq (by omega), hr,
    Int.toNat_natCast]

/-- **No word of `log_scaled` wraps**, and the logarithm is the one at the number's place. -/
theorem logScaled_eq {x : ℕ} (hx : 2 ≤ x) (hlt : x < 2 ^ 32) :
    logScaled x = some (toScale (log2At (position x)).toNat) := by
  obtain ⟨i, f, hi, hi32, hlo, htop, hf, hpos, hfrac⟩ := octave_facts hx hlt
  have hbounds := log2At_bounds (position x)
  have hlog2 : i * 2 ^ 16 + (log2At (position x) - position x + f).toNat =
    (log2At (position x)).toNat := by omega
  unfold logScaled
  rw [hi, Word.sub_eq (by omega), Nat.add_sub_cancel]
  simp only [bind_eq_bind, bind_some]
  rw [logFrac_eq hlo htop hf hfrac, bind_some, logFraction_eq hf (p := position x) (by omega),
    bind_some, hlog2, Word.fit_eq (by omega), bind_some, Word.fit_eq (by omega), bind_some,
    Word.fit_eq (by omega), bind_some, Word.fit_eq (by omega), bind_some]
  rfl

/-! ### In order -/

/-- A larger number is not at an earlier place. -/
theorem position_mono {x y : ℕ} (hx : 2 ≤ x) (hxy : x ≤ y) (hy : y < 2 ^ 32) :
    position x ≤ position y := by
  obtain ⟨i, f, hi, hi32, hlo, htop, hf, hpos, hfrac⟩ := octave_facts hx (by omega)
  obtain ⟨k, g, hk, hk32, hlo', htop', hg, hpos', hfrac'⟩ := octave_facts (hx.trans hxy) hy
  have hsize : msb x ≤ msb y := Nat.size_le_size hxy
  rcases Nat.lt_or_ge i k with h | h
  · -- the octave is a later one
    omega
  · obtain rfl : i = k := by omega
    have hfg : f ≤ g := by
      rw [hfrac, hfrac']
      split
      · exact Nat.mul_le_mul_right _ (Nat.sub_le_sub_right hxy _)
      · exact Nat.div_le_div_right (Nat.sub_le_sub_right hxy _)
    omega

/-- Inside a segment the logarithm does not fall. -/
theorem log2At_segment {p q : ℕ} (hpq : p ≤ q) (hseg : p / 512 = q / 512) :
    log2At p ≤ log2At q := by
  obtain ⟨-, ⟨hlo, -⟩, -⟩ := lutAt_facts (q / 512)
  have hmul : slope (q / 512) (q % 512) =
      slope (q / 512) (p % 512) + (lutAt (q / 512 + 1) - lutAt (q / 512)) * ((q : ℤ) - p) := by
    have hdist : ((q % 512 : ℕ) : ℤ) = ((p % 512 : ℕ) : ℤ) + (q - p) := by omega
    unfold slope
    rw [hdist]
    ring
  have hdown : -142 * ((q : ℤ) - p) ≤ (lutAt (q / 512 + 1) - lutAt (q / 512)) * ((q : ℤ) - p) :=
    mul_le_mul_of_nonneg_right (by omega) (by omega)
  unfold log2At
  rw [hseg]
  omega

/-- From one segment to a later one the table goes down by little. -/
theorem lutAt_add (k m : ℕ) : lutAt k - 142 * m ≤ lutAt (k + m) := by
  induction m with
  | zero => simp
  | succ m ih =>
    obtain ⟨-, ⟨hlo, -⟩, -⟩ := lutAt_facts (k + m)
    have hnext : k + (m + 1) = k + m + 1 := by omega
    rw [hnext]
    push_cast
    omega

/-- At the end of a segment the logarithm falls by little, and a segment later it has not fallen. -/
theorem log2At_le {p q : ℕ} (hpq : p ≤ q) :
    log2At p ≤ log2At q + 144 ∧ (p + 512 ≤ q → log2At p ≤ log2At q) := by
  by_cases hseg : p / 512 = q / 512
  · have h := log2At_segment hpq hseg
    omega
  · obtain ⟨m, hm⟩ : ∃ m, q / 512 = p / 512 + m :=
      Nat.exists_eq_add_of_le (Nat.div_le_div_right hpq)
    have htable := lutAt_add (p / 512) m
    have hp := slope_bounds (p / 512) (Nat.mod_lt p (by decide : 0 < 512))
    have hq := slope_bounds (q / 512) (Nat.mod_lt q (by decide : 0 < 512))
    rw [← hm] at htable
    unfold log2At
    omega

theorem toScale_mono {l m : ℕ} (h : l ≤ m) : toScale l ≤ toScale m := by
  unfold toScale
  omega

theorem toScale_le {l m : ℕ} (h : l ≤ m + 144) : toScale l ≤ toScale m + 1 := by
  unfold toScale
  omega

/-- **The logarithm falls by no more than one**, and not inside a segment, nor over as far as a
segment. -/
theorem logScaled_order {x y : ℕ} (hx : 2 ≤ x) (hxy : x ≤ y) (hy : y < 2 ^ 32) :
    ∃ a b, logScaled x = some a ∧ logScaled y = some b ∧ a ≤ b + 1 ∧
      (segment x = segment y ∨ position x + 512 ≤ position y → a ≤ b) := by
  have hpos := position_mono hx hxy hy
  have hlow := log2At_bounds (position x)
  have hlow' := log2At_bounds (position y)
  obtain ⟨hfall, hfar⟩ := log2At_le hpos
  refine ⟨_, _, logScaled_eq hx (by omega), logScaled_eq (hx.trans hxy) hy,
    toScale_le (by omega), ?_⟩
  rintro (hseg | hseg)
  · have hle := log2At_segment hpos hseg
    exact toScale_mono (by omega)
  · have hle := hfar hseg
    exact toScale_mono (by omega)

/-! ### Roots and logarithms -/

/-- **Roots and logarithms.**  No word of `sqrt32`, `sqrt64` or `log_scaled` wraps, and the table is
read inside.  The root is the nearest integer, but for the largest there is: of 16 digits where the
number is below 2³².  The logarithm of a larger number is less by one at most, and by nothing in the
same segment or at a distance of one. -/
theorem features_sound :
    (∀ x < 2 ^ 32, ∃ r, sqrt32 x = some r ∧ (r : ℤ) = min (round √(x : ℝ)) (2 ^ 16 - 1)) ∧
    (∀ x < 2 ^ 64, ∃ r, sqrt64 x = some r ∧
      (r : ℤ) = min (round √(x : ℝ)) (if x < 2 ^ 32 then 2 ^ 16 - 1 else 2 ^ 32 - 1)) ∧
    ∀ x y, 2 ≤ x → x ≤ y → y < 2 ^ 32 →
    ∃ a b, logScaled x = some a ∧ logScaled y = some b ∧ a ≤ b + 1 ∧
      (segment x = segment y ∨ position x + 512 ≤ position y → a ≤ b) :=
  ⟨fun _ hx => sqrt32_eq hx, fun _ hx => sqrt64_eq hx, fun _ _ hx hxy hy =>
    logScaled_order hx hxy hy⟩

/-- The root of the largest number below 2⁶⁴, and the logarithms of two in a row. -/
theorem features_sound_ends :
    (∃ r, sqrt64 (2 ^ 64 - 1) = some r ∧ (r : ℤ) = min (round √((2 ^ 64 - 1 : ℕ) : ℝ))
      (if 2 ^ 64 - 1 < 2 ^ 32 then 2 ^ 16 - 1 else 2 ^ 32 - 1)) ∧
    ∃ a b, logScaled 1879 = some a ∧ logScaled 1880 = some b ∧ a ≤ b + 1 ∧
      (segment 1879 = segment 1880 ∨ position 1879 + 512 ≤ position 1880 → a ≤ b) :=
  ⟨features_sound.2.1 (2 ^ 64 - 1) (by decide),
    features_sound.2.2 1879 1880 (by decide) (by decide) (by decide)⟩

/-- A root that is not the nearest integer, and a logarithm that falls. -/
theorem features_fall :
    (sqrt64 (2 ^ 32 - 1) = some 65535 ∧ min (round √((2 ^ 32 - 1 : ℕ) : ℝ)) (2 ^ 32 - 1) = 65536) ∧
    logScaled 1879 = some 483 ∧ logScaled 1880 = some 482 := by
  refine ⟨⟨by decide, ?_⟩, by decide, by decide⟩
  have hroot : Nat.sqrt (2 ^ 32 - 1) = 65535 := (Nat.eq_sqrt.mpr (by norm_num)).symm
  rw [Root.round_sqrt, hroot]
  norm_num

end Hassmic.Mww
