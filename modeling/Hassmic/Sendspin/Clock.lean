import Hassmic.Lib.Covariance
import Hassmic.Lib.Steps

/-!
# The clock of the server

The player keeps an estimate of the server's clock against its own: an offset, a drift, and the
covariance of the two.  Every answer to a `client/time` is a measurement of the offset, with an
error that its round trip bounds.  The first two measurements set the estimate up, each later one is
a step of a Kalman filter: predict, forget when the prediction is far off, correct.

The arithmetic is that of rational numbers.  A division by zero and an arithmetic step on the
infinite variance of a filter that knows nothing yet stop the model, so that a filter that goes on
has done neither.

## Main definitions

* `TimeFilter` — the filter, the source's `tf`.
* `tfReset`, `TimeFilter.update`, `TimeFilter.clientTime` — what is done with it.
* `TimeFilter.serverTime` — its model of the server's clock.
* `TimeFilter.Sound` — what every measurement preserves.

## Main results

* `sound_update` — a measurement with a positive error goes through and keeps the filter sound.
* `clientTime_spec` — our time at the server's, to the nearest microsecond.
* `filter_sound` — **the filter stays sound through any measurements and resets**.
-/

namespace Hassmic.Sendspin

open Steps (Yields)

/-- The filter.  `poo`, `pod` and `pdd` are the covariance of offset and drift. -/
structure TimeFilter where
  last : ℤ := 0
  count : ℕ := 0
  offset : ℚ := 0
  drift : ℚ := 0
  poo : WithTop ℚ := 0
  pod : ℚ := 0
  pdd : ℚ := 0
  useDrift : Bool := false

/-- A quotient, where it is one. -/
def quotient (x y : ℚ) : Option ℚ := if y = 0 then none else some (x / y)

/-- A number to compute with. -/
def finite : WithTop ℚ → Option ℚ
  | none => none
  | some x => some x

/-- The whole number nearest to `x`, halves away from zero. -/
def llround (x : ℚ) : ℤ := if 0 ≤ x then ⌊x + 1 / 2⌋ else ⌈x - 1 / 2⌉

/-- A filter that knows nothing. -/
def tfReset : TimeFilter := { poo := ⊤ }

namespace TimeFilter

variable (s : TimeFilter)

/-- The covariance once it is finite. -/
def cov (poo : ℚ) : Cov ℚ := ⟨poo, s.pod, s.pdd⟩

/-- The first measurement. -/
def first (z r : ℚ) (t : ℤ) : TimeFilter :=
  { s with last := t, count := 1, offset := z, poo := r, drift := 0 }

/-- The second one. -/
def second (z r : ℚ) (t : ℤ) : Option TimeFilter := do
  let dt : ℚ := t - s.last
  let drift ← quotient (z - s.offset) dt
  let poo ← finite s.poo
  let pdd ← quotient (poo + r) (dt * dt)
  return { s with last := t, count := 2, drift := drift, offset := z, pdd := pdd, poo := r }

/-- What the covariance has become by the time of a measurement. -/
def predicted (poo dt : ℚ) : Cov ℚ where
  oo := poo + 2 * s.pod * dt + s.pdd * dt * dt
  od := s.pod + s.pdd * dt
  dd := s.pdd + dt * (1 / 10 ^ 22)

/-- The adaptive forgetting. -/
def forgets (resid maxError : ℚ) : Bool := !(s.count < 100) && decide (3 * maxError < |resid|)

/-- Every later measurement. -/
def later (z maxError r : ℚ) (t : ℤ) : Option TimeFilter := do
  let dt : ℚ := t - s.last
  let poo ← finite s.poo
  let pred := s.offset + s.drift * dt
  let resid := z - pred
  let n := if s.forgets resid maxError then (s.predicted poo dt).scaled 4 else s.predicted poo dt
  let u ← quotient 1 (max (n.oo + r) (1 / 10 ^ 9))
  let ko := n.oo * u
  let kd := n.od * u
  let drift := s.drift + kd * resid
  let pdd := n.dd - kd * n.od
  return { last := t, count := if s.count < 100 then s.count + 1 else s.count
           offset := pred + ko * resid, drift := drift
           poo := (n.oo - ko * n.oo : ℚ), pod := n.od - kd * n.oo, pdd := pdd
           useDrift := decide (4 * pdd < drift * drift) }

/-- A measurement `z` of the offset, at our time `t`; an older one than the last says nothing. -/
def update (z maxError : ℚ) (t : ℤ) : Option TimeFilter :=
  let r := maxError * (1 / 2) * (maxError * (1 / 2))
  if s.last < t then
    if s.count = 0 then some (s.first z r t)
    else if s.count = 1 then s.second z r t
    else s.later z maxError r t
  else some s

/-- The clock can be used. -/
def synced : Bool := 2 ≤ s.count && (finite s.poo).isSome

/-- The drift in use. -/
def driftUsed : ℚ := if s.useDrift then s.drift else 0

/-- The server's clock at our time `t`, as the filter has it. -/
def serverTime (t : ℚ) : ℚ := t + s.offset + s.driftUsed * (t - s.last)

/-- Our time at the server's time `u`, before rounding. -/
def clientExact (u : ℚ) : Option ℚ :=
  quotient (u - s.offset + s.driftUsed * s.last) (1 + s.driftUsed)

/-- Our time, in whole microseconds. -/
def clientTime (u : ℤ) : Option ℤ := (s.clientExact u).map llround

end TimeFilter

/-! ### Numbers -/

theorem quotient_of_ne {x y : ℚ} (hy : y ≠ 0) : quotient x y = some (x / y) := if_neg hy

theorem llround_intCast (n : ℤ) : llround n = n := by
  unfold llround
  split_ifs with h
  · rw [Int.floor_eq_iff]
    constructor <;> linarith
  · rw [Int.ceil_eq_iff]
    constructor <;> linarith

/-- Rounding is off by a half at most. -/
theorem abs_llround_sub_le (x : ℚ) : |(llround x : ℚ) - x| ≤ 1 / 2 := by
  unfold llround
  rw [abs_le]
  split_ifs with h
  · have hlo := Int.lt_floor_add_one (x + 1 / 2)
    have hhi := Int.floor_le (x + 1 / 2)
    constructor <;> linarith
  · have hlo := Int.le_ceil (x - 1 / 2)
    have hhi := Int.ceil_lt_add_one (x - 1 / 2)
    constructor <;> linarith

/-! ### What every measurement preserves -/

namespace TimeFilter

/-- **A sound filter.**  Without a measurement it knows nothing of the drift; from the first one on
its covariance is finite and positive semidefinite, and it has no correlation before the third. -/
structure Sound (s : TimeFilter) : Prop where
  fresh : s.count = 0 → 0 ≤ s.poo ∧ s.pdd = 0
  early : s.count ≤ 1 → s.pod = 0
  psd : s.count ≠ 0 → ∃ poo : ℚ, s.poo = poo ∧ (s.cov poo).Psd

theorem sound_start : Sound {} :=
  ⟨fun _ => ⟨le_refl 0, rfl⟩, fun _ => rfl, fun h => absurd rfl h⟩

theorem sound_reset : tfReset.Sound :=
  ⟨fun _ => ⟨le_top, rfl⟩, fun _ => rfl, fun h => absurd rfl h⟩

variable {s : TimeFilter}

theorem sound_first (h : s.Sound) (hcount : s.count = 0) (z : ℚ) {r : ℚ} (hr : 0 ≤ r) (t : ℤ) :
    (s.first z r t).Sound := by
  have hpdd : s.pdd = 0 := (h.fresh hcount).2
  have hpod : s.pod = 0 := h.early (by omega)
  refine ⟨?_, fun _ => hpod, fun _ => ⟨r, rfl, ?_⟩⟩
  · intro hzero
    exact absurd hzero one_ne_zero
  · refine ⟨hr, hpdd.ge, ?_⟩
    change s.pod ^ 2 ≤ r * s.pdd
    rw [hpod, hpdd, mul_zero, zero_pow two_ne_zero]

theorem sound_second (h : s.Sound) (hcount : s.count = 1) (z : ℚ) {r : ℚ} (hr : 0 ≤ r) {t : ℤ}
    (ht : s.last < t) : Yields (s.second z r t) Sound := by
  obtain ⟨poo, hpoo, hpsd⟩ := h.psd (by omega)
  have hpod : s.pod = 0 := h.early hcount.le
  have hdt : (0 : ℚ) < t - s.last := by
    rw [sub_pos]
    exact_mod_cast ht
  unfold second
  rw [hpoo]
  dsimp only [finite, bind, pure, Option.bind]
  rw [quotient_of_ne hdt.ne']
  dsimp only
  rw [quotient_of_ne (mul_pos hdt hdt).ne']
  refine Yields.pure ⟨?_, ?_, fun _ => ⟨r, rfl, ?_⟩⟩
  · intro hzero
    exact absurd hzero two_ne_zero
  · intro _
    exact hpod
  · have hpdd : 0 ≤ (poo + r) / ((t - s.last) * (t - s.last)) :=
      div_nonneg (add_nonneg hpsd.oo hr) (mul_pos hdt hdt).le
    refine ⟨hr, hpdd, ?_⟩
    change s.pod ^ 2 ≤ r * _
    rw [hpod, zero_pow two_ne_zero]
    exact mul_nonneg hr hpdd

/-- The prediction is a drift for the time that has passed, and a less certain drift. -/
theorem predicted_eq (poo dt : ℚ) :
    s.predicted poo dt = ((s.cov poo).drifted dt).blurred (dt * (1 / 10 ^ 22)) := rfl

theorem psd_predicted {poo dt : ℚ} (h : (s.cov poo).Psd) (hdt : 0 ≤ dt) :
    (s.predicted poo dt).Psd := by
  rw [predicted_eq]
  exact (h.drifted dt).blurred (mul_nonneg hdt (by norm_num))

theorem sound_later (h : s.Sound) (hcount : 2 ≤ s.count) (z maxError : ℚ) {r : ℚ}
    (hr : 0 ≤ r) {t : ℤ} (ht : s.last < t) : Yields (s.later z maxError r t) Sound := by
  obtain ⟨poo, hpoo, hpsd⟩ := h.psd (by omega)
  have hdt : (0 : ℚ) < t - s.last := by
    rw [sub_pos]
    exact_mod_cast ht
  unfold later
  rw [hpoo]
  dsimp only [finite, bind, pure, Option.bind]
  generalize hn : (if s.forgets (z - (s.offset + s.drift * (t - s.last))) maxError
    then (s.predicted poo (t - s.last)).scaled 4 else s.predicted poo (t - s.last)) = n
  have hpred : n.Psd := by
    rw [← hn]
    split_ifs
    · exact (psd_predicted hpsd hdt.le).scaled (by norm_num)
    · exact psd_predicted hpsd hdt.le
  -- the floor under the variance keeps the gain at most the optimal one
  have hfloor : 0 < max (n.oo + r) (1 / 10 ^ 9) := lt_max_of_lt_right (by norm_num)
  have hgain : n.oo * (1 / max (n.oo + r) (1 / 10 ^ 9)) ≤ 1 := by
    rw [mul_one_div]
    apply div_le_one_of_le₀ _ hfloor.le
    exact (le_add_of_nonneg_right hr).trans (le_max_left _ _)
  rw [quotient_of_ne hfloor.ne']
  have hfew : ∀ k, (if s.count < 100 then s.count + 1 else s.count) ≤ k → 2 ≤ k := by
    intro k hk
    split_ifs at hk <;> omega
  refine Yields.pure ⟨?_, ?_, fun _ => ⟨_, rfl, hpred.measured hgain⟩⟩
  · intro hzero
    exact absurd (hfew 0 hzero.le) (by omega)
  · intro hone
    exact absurd (hfew 1 hone) (by omega)

/-- **A measurement with a positive error goes through** and keeps the filter sound. -/
theorem sound_update (h : s.Sound) (z maxError : ℚ) (t : ℤ) :
    Yields (s.update z maxError t) Sound := by
  have hr : 0 ≤ maxError * (1 / 2) * (maxError * (1 / 2)) := mul_self_nonneg _
  unfold update
  dsimp only
  split_ifs with ht hzero hone
  · exact Yields.pure (sound_first h hzero z hr t)
  · exact sound_second h hone z hr ht
  · exact sound_later h (by omega) z maxError hr ht
  · exact Yields.pure h

/-! ### Our time at the server's -/

theorem clientExact_eq (hdrift : s.driftUsed ≠ -1) (u : ℚ) :
    s.clientExact u = some ((u - s.offset + s.driftUsed * s.last) / (1 + s.driftUsed)) := by
  apply quotient_of_ne
  intro hzero
  exact hdrift (by linear_combination hzero)

theorem clientExact_serverTime (hdrift : s.driftUsed ≠ -1) (t : ℚ) :
    s.clientExact (s.serverTime t) = some t := by
  have hne : 1 + s.driftUsed ≠ 0 := fun hzero => hdrift (by linear_combination hzero)
  rw [clientExact_eq hdrift]
  refine congrArg some ?_
  rw [div_eq_iff hne]
  unfold serverTime
  ring

theorem serverTime_clientExact {u x : ℚ} (hx : s.clientExact u = some x) : s.serverTime x = u := by
  unfold clientExact quotient at hx
  split_ifs at hx with hne
  cases hx
  have hmul := div_mul_cancel₀ (u - s.offset + s.driftUsed * s.last) hne
  unfold serverTime
  linear_combination hmul

/-- The time given is within half a microsecond of the one the filter has, and that one where it is
a whole number. -/
theorem clientTime_spec (hdrift : s.driftUsed ≠ -1) (u : ℤ) :
    ∃ t : ℤ, s.clientTime u = some t ∧ (∃ x : ℚ, s.serverTime x = u ∧ |(t : ℚ) - x| ≤ 1 / 2) ∧
      ∀ n : ℤ, s.serverTime n = u → t = n := by
  have hexact := clientExact_eq hdrift (u : ℚ)
  refine ⟨_, congrArg (Option.map llround) hexact,
    ⟨_, serverTime_clientExact hexact, abs_llround_sub_le _⟩, ?_⟩
  intro n hn
  rw [← hn, clientExact_serverTime hdrift] at hexact
  rw [← hn, ← Option.some.inj hexact, llround_intCast]

/-! ### Whole runs -/

/-- What happens to the filter. -/
inductive Told
  | reset
  | measured (z maxError : ℚ) (t : ℤ)

/-- What it makes of it. -/
def step (s : TimeFilter) : Told → Option TimeFilter
  | .reset => some tfReset
  | .measured z maxError t => s.update z maxError t

/-- The filter after all this; it starts with the zeros of a static variable. -/
def run (l : List Told) : Option TimeFilter := l.foldlM step {}

theorem sound_step (h : s.Sound) (e : Told) : Yields (s.step e) Sound := by
  cases e with
  | reset => exact Yields.pure sound_reset
  | measured z maxError t => exact sound_update h z maxError t

theorem sound_run (l : List Told) : Yields (run l) Sound :=
  Yields.foldlM (fun e _ _ h => sound_step h e) sound_start

/-- No variance is negative, and the covariance is bounded by them. -/
theorem Sound.bounds (h : s.Sound) :
    0 ≤ s.poo ∧ 0 ≤ s.pdd ∧ ((s.pod ^ 2 : ℚ) : WithTop ℚ) ≤ s.poo * (s.pdd : WithTop ℚ) := by
  by_cases hcount : s.count = 0
  · obtain ⟨hpoo, hpdd⟩ := h.fresh hcount
    have hpod := h.early (by omega)
    refine ⟨hpoo, hpdd.ge, ?_⟩
    rw [hpod, hpdd, zero_pow two_ne_zero, WithTop.coe_zero, mul_zero]
  · obtain ⟨poo, hpoo, hpsd⟩ := h.psd hcount
    rw [hpoo]
    refine ⟨WithTop.coe_nonneg.mpr hpsd.oo, hpsd.dd, ?_⟩
    rw [← WithTop.coe_mul, WithTop.coe_le_coe]
    exact hpsd.od

/-- **The filter stays sound.**  Whatever is measured, whenever the filter is reset, no division is
by zero; no variance is negative and the covariance is bounded by them; and our time at the server's
is the inverse of the server's time at ours, to the nearest microsecond, unless the drift in use is
-1. -/
theorem filter_sound (l : List Told) :
    ∃ s, run l = some s ∧
      (0 ≤ s.poo ∧ 0 ≤ s.pdd ∧ ((s.pod ^ 2 : ℚ) : WithTop ℚ) ≤ s.poo * (s.pdd : WithTop ℚ)) ∧
      (s.driftUsed ≠ -1 →
        (∀ t, s.clientExact (s.serverTime t) = some t) ∧
        ∀ u : ℤ, ∃ t : ℤ, s.clientTime u = some t ∧
          (∃ x : ℚ, s.serverTime x = u ∧ |(t : ℚ) - x| ≤ 1 / 2) ∧
          ∀ n : ℤ, s.serverTime n = u → t = n) := by
  obtain ⟨s, hrun, hsound⟩ := sound_run l
  refine ⟨s, hrun, hsound.bounds, ?_⟩
  intro hdrift
  exact ⟨clientExact_serverTime hdrift, clientTime_spec hdrift⟩

end TimeFilter

end Hassmic.Sendspin
