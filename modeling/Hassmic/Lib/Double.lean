import Hassmic.Lib.Text

/-!
# Numbers of double precision

What a rational number becomes when it is held in 53 binary digits: the nearest one that can be
held, the even one of two.  An integer of no more digits is held as it is, and any other number is
off by no more than a part in 2⁵³ of itself.  A decimal number in a text is read as the nearest one
to its value.

## Main definitions

* `Double`, `Double.round`, `Double.ofRat` — the numbers, and the one nearest to a rational.
* `Double.strtod` — a number at the start of a text.
* `Double.lround` — the nearest integer, halves away from zero.

## Main results

* `Double.abs_round_sub_le`, `Double.round_intCast` — how far off a number is held.
* `Double.strtod_decimal`, `Double.strtod_numeral` — reading what was printed.
* `Double.lround_eq`, `Double.lround_tenth` — the integer that a number is near to.
-/

/-- A number of double precision; the sign of zero is left out. -/
inductive Double
  | fin (x : ℚ)
  | inf (neg : Bool)
  | nan
  deriving DecidableEq

namespace Double

open Text Byte

/-! ### Rounding -/

/-- The nearest integer, the even one of two. -/
def roundEven (x : ℚ) : ℤ :=
  if x - ⌊x⌋ < 1 / 2 then ⌊x⌋
  else if 1 / 2 < x - ⌊x⌋ then ⌊x⌋ + 1
  else if ⌊x⌋ % 2 = 0 then ⌊x⌋ else ⌊x⌋ + 1

/-- The place of the last binary digit that is held. -/
def place (x : ℚ) : ℤ := max (Int.log 2 |x| - 52) (-1074)

/-- The nearest number of 53 digits. -/
def round (x : ℚ) : ℚ := roundEven (x / 2 ^ place x) * 2 ^ place x

/-- The number nearest to a rational. -/
def ofRat (x : ℚ) : Double := if 2 ^ 1024 ≤ |round x| then .inf (decide (x < 0)) else .fin (round x)

theorem abs_roundEven_sub_le (x : ℚ) : |roundEven x - x| ≤ 1 / 2 := by
  have hlo := Int.floor_le x
  have hhi := Int.lt_floor_add_one x
  unfold roundEven
  rw [abs_le]
  split
  · constructor <;> linarith
  · split
    · push_cast
      constructor <;> linarith
    · split
      · constructor <;> linarith
      · push_cast
        constructor <;> linarith

variable {x : ℚ} {l ds : Bytes}

/-- Rounding does not cross an integer. -/
theorem le_roundEven {n : ℤ} (h : (n : ℚ) ≤ x) : n ≤ roundEven x := by
  have hfloor : n ≤ ⌊x⌋ := Int.le_floor.mpr h
  unfold roundEven
  split
  · exact hfloor
  · split
    · omega
    · split <;> omega

theorem roundEven_le {n : ℤ} (h : x ≤ n) : roundEven x ≤ n := by
  have hfloor : ⌊x⌋ ≤ n := Int.cast_le.mp ((Int.floor_le x).trans h)
  have hnext : ¬ x - ⌊x⌋ < 1 / 2 → ⌊x⌋ + 1 ≤ n := by
    intro hhalf
    have hlt : (⌊x⌋ : ℚ) < n := by linarith
    exact Int.cast_lt.mp hlt
  unfold roundEven
  split
  · exact hfloor
  · next hhalf =>
    split
    · exact hnext hhalf
    · split
      · exact hfloor
      · exact hnext hhalf

theorem roundEven_intCast (n : ℤ) : roundEven n = n := by
  unfold roundEven
  rw [Int.floor_intCast, sub_self, if_pos (by norm_num)]

theorem two_zpow_pos (n : ℤ) : (0 : ℚ) < 2 ^ n := zpow_pos (by norm_num) n

theorem round_zero : round 0 = 0 := by
  have hzero : roundEven 0 = 0 := roundEven_intCast 0
  unfold round
  rw [zero_div, hzero, Int.cast_zero, zero_mul]

/-- **A number is off by no more than half of its last digit.** -/
theorem abs_round_sub_le (x : ℚ) : |round x - x| ≤ |x| / 2 ^ 53 + 2 ^ (-1075 : ℤ) := by
  have hpos := two_zpow_pos (place x)
  have hhalf : |round x - x| ≤ 2 ^ place x / 2 := by
    have hround : round x - x = (roundEven (x / 2 ^ place x) - x / 2 ^ place x) * 2 ^ place x := by
      unfold round
      rw [sub_mul, div_mul_cancel₀ x hpos.ne']
    rw [hround, abs_mul, abs_of_pos hpos]
    have hnear := abs_roundEven_sub_le (x / 2 ^ place x)
    calc |roundEven (x / 2 ^ place x) - x / 2 ^ place x| * 2 ^ place x ≤ 1 / 2 * 2 ^ place x :=
          mul_le_mul_of_nonneg_right hnear hpos.le
      _ = 2 ^ place x / 2 := by ring
  by_cases hx : x = 0
  · rw [hx, round_zero, sub_zero, abs_zero, zero_div, zero_add]
    exact (two_zpow_pos _).le
  · have hlog : (2 : ℚ) ^ Int.log 2 |x| ≤ |x| := by
      have h := Int.zpow_log_le_self (b := 2) (r := |x|) (by norm_num) (abs_pos.mpr hx)
      exact_mod_cast h
    have hplace : (2 : ℚ) ^ place x ≤ 2 ^ (Int.log 2 |x| - 52) + 2 ^ (-1074 : ℤ) := by
      unfold place
      rcases max_cases (Int.log 2 |x| - 52) (-1074) with ⟨h, -⟩ | ⟨h, -⟩
      · rw [h]
        exact le_add_of_nonneg_right (two_zpow_pos _).le
      · rw [h]
        exact le_add_of_nonneg_left (two_zpow_pos _).le
    rw [zpow_sub₀ (by norm_num)] at hplace
    have hsmall : ((2 : ℚ) ^ (-1074 : ℤ)) / 2 = 2 ^ (-1075 : ℤ) := by
      have hpred : (-1075 : ℤ) = -1074 - 1 := by norm_num
      rw [hpred, zpow_sub_one₀ (by norm_num), div_eq_mul_inv]
    have hbig : (2 : ℚ) ^ Int.log 2 |x| / 2 ^ (52 : ℤ) / 2 ≤ |x| / 2 ^ 53 := by
      rw [div_div]
      have hdenom : (2 : ℚ) ^ (52 : ℤ) * 2 = 2 ^ 53 := by norm_num
      rw [hdenom]
      exact div_le_div_of_nonneg_right hlog (by norm_num)
    linarith

/-- **An integer of 53 digits is held as it is.** -/
theorem round_intCast {m : ℤ} (hm : |m| < 2 ^ 53) : round m = m := by
  have hplace : place m ≤ 0 := by
    unfold place
    refine max_le ?_ (by norm_num)
    by_cases hzero : m = 0
    · rw [hzero]
      norm_num
    · have hpos : (0 : ℚ) < |(m : ℚ)| := abs_pos.mpr (Int.cast_ne_zero.mpr hzero)
      have hlt : |(m : ℚ)| < ((2 : ℕ) : ℚ) ^ (53 : ℤ) := by
        rw [← Int.cast_abs]
        exact_mod_cast hm
      have hlog := (Int.lt_zpow_iff_log_lt (b := 2) (by norm_num) hpos).mp hlt
      omega
  obtain ⟨n, hn⟩ : ∃ n : ℕ, place m = -n := ⟨(-place m).toNat, by omega⟩
  have hscale : (m : ℚ) / 2 ^ place m = ((m * 2 ^ n : ℤ) : ℚ) := by
    rw [hn, zpow_neg, zpow_natCast, div_inv_eq_mul]
    push_cast
    ring
  unfold round
  rw [hscale, roundEven_intCast, ← hscale, div_mul_cancel₀ _ (two_zpow_pos _).ne']

/-- The part of a number that is lost near zero is small. -/
theorem tiny_le : (2 : ℚ) ^ (-1075 : ℤ) ≤ 1 / 1024 := by
  have hten : (1 / 1024 : ℚ) = 2 ^ (-10 : ℤ) := by norm_num
  rw [hten]
  exact zpow_le_zpow_right₀ (by norm_num) (by norm_num)

/-- A number that is not too large is finite. -/
theorem ofRat_fin (hx : |x| ≤ 2 ^ 64) : ofRat x = .fin (round x) := by
  have hnear := abs_round_sub_le x
  have hle : |round x| ≤ |round x - x| + |x| := by
    have h := abs_add_le (round x - x) x
    rwa [sub_add_cancel] at h
  have hpart : |x| / 2 ^ 53 ≤ 2 ^ 11 := by
    rw [div_le_iff₀ (by norm_num)]
    exact hx.trans (by norm_num)
  have htiny := tiny_le
  have hbelow : |round x| < 2 ^ 65 := by linarith
  have hhuge : (2 : ℚ) ^ 65 ≤ 2 ^ 1024 := pow_le_pow_right₀ (by norm_num) (by norm_num)
  unfold ofRat
  rw [if_neg (not_le.mpr (hbelow.trans_le hhuge))]

/-! ### The nearest integer -/

/-- `lround`. -/
def lround (x : ℚ) : ℤ := if x < 0 then -⌊-x + 1 / 2⌋ else ⌊x + 1 / 2⌋

/-- **A number near to an integer** is rounded to it. -/
theorem lround_eq {n : ℤ} (h : |x - n| < 1 / 2) : lround x = n := by
  obtain ⟨hlo, hhi⟩ := abs_lt.mp h
  unfold lround
  split
  · have hfloor : ⌊-x + 1 / 2⌋ = -n := by
      rw [Int.floor_eq_iff]
      push_cast
      constructor <;> linarith
    rw [hfloor, neg_neg]
  · rw [Int.floor_eq_iff]
    constructor <;> linarith

/-- **A tenth that is held and taken ten times** comes near to its numerator. -/
theorem lround_tenth {q y : ℚ} {k : ℤ} (hk : q * 10 = k) (hq : |q| ≤ 2 ^ 32)
    (hy : |y - q| ≤ |q| / 2 ^ 53 + 2 ^ (-1075 : ℤ)) : lround (round (y * 10)) = k := by
  refine lround_eq ?_
  have htiny := tiny_le
  have hpart : |q| / 2 ^ 53 ≤ 1 / 2 ^ 21 := by
    rw [div_le_div_iff₀ (by norm_num) (by norm_num)]
    linarith
  have hy10 : |y * 10| ≤ 2 ^ 36 := by
    have h := abs_add_le (y - q) q
    rw [sub_add_cancel] at h
    rw [abs_mul, abs_of_pos (by norm_num : (0 : ℚ) < 10)]
    linarith
  have hround := abs_round_sub_le (y * 10)
  have hpart10 : |y * 10| / 2 ^ 53 ≤ 1 / 2 ^ 17 := by
    rw [div_le_div_iff₀ (by norm_num) (by norm_num)]
    linarith
  have hscale : |y * 10 - k| = |y - q| * 10 := by
    rw [← hk, ← sub_mul, abs_mul, abs_of_pos (by norm_num : (0 : ℚ) < 10)]
  have hsplit := abs_sub_le (round (y * 10)) (y * 10) k
  rw [hscale] at hsplit
  linarith

/-! ### A number in a text -/

/-- `tolower`. -/
def lower (c : UInt8) : UInt8 := if 0x41 ≤ c ∧ c ≤ 0x5a then c + 32 else c

/-- The rest behind a word, in whatever case it is written. -/
def caseless (w l : Bytes) : Option Bytes :=
  if (l.take w.length).map lower = w then some (l.drop w.length) else none

/-- The digits before and behind the point, and the rest. -/
def mantissa (b : ℕ) (l : Bytes) : Option (Bytes × Bytes × Bytes) :=
  let i := digits b l
  match l.drop i.length with
  | [] => if i = [] then none else some (i, [], [])
  | c :: r =>
      if c = dot then
        let f := digits b r
        if i = [] ∧ f = [] then none else some (i, f, r.drop f.length)
      else if i = [] then none else some (i, [], c :: r)

/-- The exponent behind the letter `e`, `0` if there is none. -/
def exponent (e : UInt8) : Bytes → ℤ × Bytes
  | [] => (0, [])
  | c :: l =>
      let s := sign l
      let d := digits 10 s.2
      if lower c = e ∧ d ≠ [] then
        (if s.1 then -(ofDigits 10 d : ℤ) else ofDigits 10 d, s.2.drop d.length)
      else (0, c :: l)

/-- A decimal number. -/
def decimalNumber (l : Bytes) : Option (ℚ × Bytes) :=
  (mantissa 10 l).map fun m =>
    let e := exponent 0x65 m.2.2
    ((ofDigits 10 (m.1 ++ m.2.1) : ℚ) * 10 ^ (e.1 - (m.2.1.length : ℤ)), e.2)

/-- A number in base 16, with a binary exponent. -/
def hexNumber : Bytes → Option (ℚ × Bytes)
  | 0x30 :: x :: l =>
      if lower x = 0x78 then
        (mantissa 16 l).map fun m =>
          let e := exponent 0x70 m.2.2
          ((ofDigits 16 (m.1 ++ m.2.1) : ℚ) * 2 ^ (e.1 - 4 * (m.2.1.length : ℤ)), e.2)
      else none
  | _ => none

/-- What may follow `nan`. -/
def nanTail (l : Bytes) : Bytes :=
  match l with
  | [] => []
  | c :: r =>
      let w := r.takeWhile fun d =>
        (0x30 ≤ d && d ≤ 0x39) || (0x61 ≤ lower d && lower d ≤ 0x7a) || d == 0x5f
      if c = 0x28 ∧ (r.drop w.length).head? = some 0x29 then r.drop (w.length + 1) else c :: r

/-- A number without a sign. -/
def magnitude (l : Bytes) : Option (Double × Bytes) :=
  match caseless [0x69, 0x6e, 0x66, 0x69, 0x6e, 0x69, 0x74, 0x79] l with
  | some r => some (.inf false, r)
  | none =>
  match caseless [0x69, 0x6e, 0x66] l with
  | some r => some (.inf false, r)
  | none =>
  match caseless [0x6e, 0x61, 0x6e] l with
  | some r => some (.nan, nanTail r)
  | none => ((hexNumber l).orElse fun _ => decimalNumber l).map fun m => (ofRat m.1, m.2)

/-- The number with the other sign. -/
def neg : Double → Double
  | .fin x => .fin (-x)
  | .inf b => .inf (!b)
  | .nan => .nan

/-- `strtod`: the number at the start of a text, and the rest; none if there is no number. -/
def strtod (l : Bytes) : Option (Double × Bytes) :=
  let s := sign (l.dropWhile isSpace)
  (magnitude s.2).map fun m => (if s.1 then neg m.1 else m.1, m.2)

/-! ### Reading what was printed -/

/-- The text does not go on as a number would. -/
def Stops (l : Bytes) : Prop := ∀ c ∈ l.head?, value c = 16 ∧ c ≠ dot ∧ lower c ≠ 0x78

theorem Stops.ends (h : Stops l) : Ends 10 l := by
  intro c hc
  rw [(h c hc).1]
  norm_num

/-- No digit starts a word. -/
theorem lower_digit : ∀ {c : UInt8}, value c < 10 →
    isSpace c = false ∧ c ≠ minus ∧ c ≠ plus ∧ c ≠ dot ∧ lower c ≠ 0x69 ∧ lower c ≠ 0x6e ∧
    lower c ≠ 0x78 := by
  decide +kernel

theorem lower_letter : ∀ {c : UInt8}, value c = 16 → lower c ≠ 0x65 := by
  decide +kernel

theorem caseless_ne {a c : UInt8} (h : lower c ≠ a) (w l : Bytes) : caseless (a :: w)
    (c :: l) = none := by
  unfold caseless
  rw [if_neg]
  intro heq
  rw [List.length_cons, List.take_succ_cons, List.map_cons] at heq
  exact h (List.cons.inj heq).1

theorem exponent_stops (h : Stops l) : exponent 0x65 l = (0, l) := by
  cases l with
  | nil => rfl
  | cons c l =>
    unfold exponent
    dsimp only
    rw [if_neg fun he => lower_letter (h c rfl).1 he.1]

/-- Digits and no point. -/
theorem mantissa_digits (hne : ds ≠ []) (hds : ∀ c ∈ ds, value c < 10) (hl : Stops l) :
    mantissa 10 (ds ++ l) = some (ds, [], l) := by
  unfold mantissa
  rw [digits_append hds hl.ends]
  dsimp only
  rw [List.drop_left]
  cases l with
  | nil => exact if_neg hne
  | cons c l =>
    dsimp only
    rw [if_neg (hl c rfl).2.1, if_neg hne]

/-- Digits before and behind a point. -/
theorem mantissa_point {fs : Bytes} (hne : ds ≠ []) (hds : ∀ c ∈ ds, value c < 10)
    (hfs : ∀ c ∈ fs, value c < 10) (hl : Stops l) :
    mantissa 10 (ds ++ dot :: (fs ++ l)) = some (ds, fs, l) := by
  unfold mantissa
  rw [digits_append hds (ends_of_head (by norm_num) (by decide) _)]
  dsimp only
  rw [List.drop_left]
  dsimp only
  rw [if_pos rfl, digits_append hfs hl.ends, if_neg fun h => hne h.1, List.drop_left]

/-- Digits are no word and not in base 16. -/
theorem magnitude_digits (hne : ds ≠ []) (hds : ∀ c ∈ ds, value c < 10)
    (hx : ∀ c ∈ l.head?, lower c ≠ 0x78) :
    magnitude (ds ++ l) = (decimalNumber (ds ++ l)).map fun m => (ofRat m.1, m.2) := by
  obtain ⟨c, ds', rfl⟩ : ∃ c ds', ds = c :: ds' := List.exists_cons_of_ne_nil hne
  obtain ⟨-, -, -, -, hi, hn, -⟩ := lower_digit (hds c List.mem_cons_self)
  have hhex : hexNumber (c :: ds' ++ l) = none := by
    rw [List.cons_append]
    unfold hexNumber
    split
    · next x r heq =>
      have hrest : ds' ++ l = x :: r := (List.cons.inj heq).2
      refine if_neg ?_
      cases ds' with
      | nil =>
        rw [List.nil_append] at hrest
        exact hx x (by rw [hrest]; rfl)
      | cons d ds' =>
        have hd : d = x := (List.cons.inj hrest).1
        rw [← hd]
        exact (lower_digit (hds d (List.mem_cons_of_mem c List.mem_cons_self))).2.2.2.2.2.2
    · rfl
  unfold magnitude
  rw [hhex, List.cons_append, caseless_ne hi, caseless_ne hi, caseless_ne hn]
  rfl

/-- Digits need no sign before them. -/
theorem strtod_digits (hne : ds ≠ []) (hds : ∀ c ∈ ds, value c < 10) :
    strtod (ds ++ l) = magnitude (ds ++ l) := by
  obtain ⟨c, ds', rfl⟩ : ∃ c ds', ds = c :: ds' := List.exists_cons_of_ne_nil hne
  obtain ⟨hsp, hm, hp, -⟩ := lower_digit (hds c List.mem_cons_self)
  have hdrop : (c :: ds' ++ l).dropWhile isSpace = c :: ds' ++ l := by
    rw [List.cons_append, List.dropWhile_cons, if_neg (by rw [hsp]; exact Bool.false_ne_true)]
  have hsign : sign (c :: ds' ++ l) = (false, c :: ds' ++ l) := by
    rw [List.cons_append, sign, if_neg hm, if_neg hp]
  unfold strtod
  rw [hdrop, hsign]
  dsimp only
  cases magnitude (c :: ds' ++ l) with
  | none => rfl
  | some m => rfl

theorem strtod_minus (l : Bytes) : strtod (minus :: l) = (magnitude l).map fun m =>
    (neg m.1, m.2) := by
  have hdrop : (minus :: l).dropWhile isSpace = minus :: l := by
    rw [List.dropWhile_cons, if_neg (by decide)]
  have hsign : sign (minus :: l) = (true, l) := by
    rw [sign, if_pos rfl]
  unfold strtod
  rw [hdrop, hsign]
  rfl

/-- **A numeral is read as its number.** -/
theorem strtod_numeral (n : ℕ) (hl : Stops l) :
    strtod (numeral 10 n ++ l) = some (ofRat n, l) := by
  have hne := numeral_ne_nil 10 n
  have hds := value_numeral (b := 10) (by norm_num) (by norm_num) n
  have hval := ofDigits_numeral (b := 10) (by norm_num) (by norm_num) n
  rw [strtod_digits hne hds, magnitude_digits hne hds fun c hc => (hl c hc).2.2]
  unfold decimalNumber
  rw [mantissa_digits hne hds hl]
  simp only [Option.map_some, exponent_stops hl, List.append_nil, hval,
    List.length_nil, Nat.cast_zero, sub_zero, zpow_zero, mul_one]

theorem numeral_of_lt {d : ℕ} (hd : d < 10) : numeral 10 d = [digit d] := by
  unfold numeral
  split
  · next hzero => rw [hzero]
  · next hne => rw [Nat.digits_of_lt 10 d hne hd, List.reverse_singleton, List.map_singleton]

/-- A number with one digit behind the point. -/
theorem magnitude_decimal (a : ℕ) {d : ℕ} (hd : d < 10) (hl : Stops l) :
    magnitude (numeral 10 a ++ dot :: (numeral 10 d ++ l)) = some (ofRat (a + d / 10), l) := by
  have hne := numeral_ne_nil 10 a
  have hds := value_numeral (b := 10) (by norm_num) (by norm_num) a
  have hval := ofDigits_numeral (b := 10) (by norm_num) (by norm_num) a
  have hfs := value_numeral (b := 10) (by norm_num) (by norm_num) d
  have hall : ofDigits 10 (numeral 10 a ++ numeral 10 d) = 10 * a + d := by
    rw [numeral_of_lt hd, ofDigits_append, hval, value_digit d (by omega)]
  have hdot : ∀ c ∈ (dot :: (numeral 10 d ++ l)).head?, lower c ≠ 0x78 := by
    intro c hc
    rw [← Option.some.inj hc]
    decide
  have hquotient : ((10 * a + d : ℕ) : ℚ) * 10 ^ (0 - (1 : ℕ) : ℤ) = a + d / 10 := by
    push_cast
    rw [zpow_neg_one]
    ring
  rw [magnitude_digits hne hds hdot]
  unfold decimalNumber
  rw [mantissa_point hne hds hfs hl]
  simp only [Option.map_some, exponent_stops hl, hall]
  rw [numeral_of_lt hd, List.length_singleton, hquotient]

/-- **A number with one digit behind the point is read as the nearest one to it.** -/
theorem strtod_decimal (a : ℕ) {d : ℕ} (hd : d < 10) (hl : Stops l) :
    strtod (numeral 10 a ++ dot :: (numeral 10 d ++ l)) = some (ofRat (a + d / 10), l) ∧
      strtod (minus :: (numeral 10 a ++ dot :: (numeral 10 d ++ l))) =
        some (neg (ofRat (a + d / 10)), l) := by
  have hds := value_numeral (b := 10) (by norm_num) (by norm_num) a
  have hmagnitude := magnitude_decimal a hd hl
  constructor
  · rw [strtod_digits (numeral_ne_nil 10 a) hds, hmagnitude]
  · rw [strtod_minus, hmagnitude]
    rfl

end Double
