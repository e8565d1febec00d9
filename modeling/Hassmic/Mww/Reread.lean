import Hassmic.Mww.Written

/-!
# Reading what was written

A manifest that was written is read again as the Echo starts, and as it is changed.  What is read is
what was written, with three exceptions: control characters are written as `\u` escapes, which are
dropped; a language that is empty is left out; and a cutoff that two decimals make 0 or 1 is no
probability.

## Main definitions

* `keys`, `wholeRows` — the rows of a manifest, nothing of them cut.
* `ReadsBack` — what was written is read as it was.

## Main results

* `rows_eq`, `length_manifest_le` — nothing is cut as it is written.
* `getStr_manifest`, `getNum_manifest`, `trainedLanguages_manifest` — each value is read as it was.
* `manifest_round_trip` — **when a manifest is read as it was written**.
-/

namespace Hassmic.Mww

open Byte List Option
open Text (decimal digit numeral pieces)
open Double (roundEven)

/-! ### Numbers -/

/-- No character of a number is white space. -/
theorem numChar_space {c : UInt8} (h : numChar c = true) : Text.isSpace c = false := by
  rcases Bool.or_eq_true_iff.mp h with h | h
  · have hlo : (0x30 : UInt8) ≤ c := of_decide_eq_true (Bool.and_eq_true_iff.mp h).1
    have hle := UInt8.le_iff_toNat_le.mp hlo
    unfold Text.isSpace
    rw [Bool.or_eq_false_iff, Bool.and_eq_false_iff]
    refine ⟨beq_false_of_ne ?_, Or.inr (decide_eq_false ?_)⟩
    · rintro rfl
      exact absurd hlo (by decide)
    · intro hhi
      have hlt : c.toNat ≤ 13 := UInt8.le_iff_toNat_le.mp hhi
      have h48 : 48 ≤ c.toNat := hle
      omega
  · have hmem := of_decide_eq_true h
    simp only [mem_cons, not_mem_nil, or_false] at hmem
    rcases hmem with rfl | rfl | rfl | rfl | rfl | rfl <;> decide

/-- What `jget_num` copies of a number. -/
theorem takeWhile_number {t : Bytes} (ht : ∀ c ∈ t, numChar c = true)
    (hlen : t.length < 31) {c : UInt8} (hc : numChar c = false) (l : Bytes) :
    ((t ++ c :: l).take 31).takeWhile numChar = t := by
  obtain ⟨n, hn⟩ : ∃ n, 31 = t.length + (n + 1) := ⟨30 - t.length, by omega⟩
  rw [hn, take_length_add_append, take_succ_cons, takeWhile_append_of_pos ht,
    takeWhile_cons_of_neg (by rw [hc]; exact Bool.false_ne_true), append_nil]

/-- Digits with a point between them. -/
theorem strtod_point {ds fs : Bytes} (hne : ds ≠ []) (hds : ∀ c ∈ ds, Text.value c < 10)
    (hfs : ∀ c ∈ fs, Text.value c < 10) :
    Double.strtod (ds ++ dot :: fs) =
      some (Double.ofRat (Text.ofDigits 10 (ds ++ fs) * 10 ^ (-(fs.length : ℤ))), []) := by
  have hstops : Double.Stops [] := fun c hc => by cases hc
  have hdot : ∀ c ∈ (dot :: fs).head?, Double.lower c ≠ 0x78 := by
    intro c hc
    rw [← some.inj hc]
    decide
  have hpoint := Double.mantissa_point hne hds hfs hstops
  rw [append_nil] at hpoint
  rw [Double.strtod_digits hne hds, Double.magnitude_digits hne hds hdot]
  unfold Double.decimalNumber
  rw [hpoint]
  simp only [map_some, Double.exponent_stops hstops, zero_sub]

/-- A buffer without NUL that `strtod` reads to its end. -/
theorem number_eq {t : Bytes} {d : Double} (hne : t ≠ []) (hnul : nul ∉ t)
    (h : Double.strtod t = some (d, [])) :
    number t = some d := by
  have hwhole : t.takeWhile (· ≠ nul) = t :=
    takeWhile_eq_self_iff.mpr fun c hc => decide_eq_true fun heq => hnul (heq ▸ hc)
  unfold number
  rw [if_neg hne, hwhole]
  dsimp only
  rw [h]

/-- A number with two digits. -/
theorem numeral_two {n : ℕ} (hlo : 10 ≤ n) (hhi : n < 100) :
    numeral 10 n = [digit (n / 10), digit (n % 10)] := by
  unfold numeral
  rw [if_neg (by omega), Nat.digits_eq_cons_digits_div (by norm_num) (by omega),
    Nat.digits_of_lt 10 (n / 10) (by omega)
    (by omega)]
  rfl

variable {k : ℕ} {x : ℚ} {i : Info}

theorem twoDecimals_eq (hk : k ≤ 100) : numeral 10 (k / 100) = [digit (k / 100)] ∧
    Text.pad 2 (numeral 10 (k % 100)) = [digit (k % 100 / 10), digit (k % 10)] := by
  refine ⟨Double.numeral_of_lt (by omega), ?_⟩
  by_cases hten : k % 100 < 10
  · have hzero : k % 100 / 10 = 0 := by omega
    have hsame : k % 10 = k % 100 := by omega
    rw [Double.numeral_of_lt hten, hzero, hsame]
    rfl
  · have hmod : k % 100 % 10 = k % 10 := by omega
    rw [numeral_two (by omega) (by omega), hmod]
    rfl

/-- What a digit looks like. -/
theorem digit_facts : ∀ d < 10, numChar (digit d) = true ∧ digit d ≠ quote ∧ digit d ≠ nul ∧
    Text.value (digit d) = d := by
  intro d hd
  refine ⟨?_, ?_, ?_, Text.value_digit d (by omega)⟩
  all_goals
    revert d
    decide

/-- What two decimals look like. -/
theorem twoDecimals_facts (hk : k ≤ 100) : (∀ c ∈ twoDecimals k, numChar c = true) ∧
    (twoDecimals k).length = 4 ∧ quote ∉ twoDecimals k ∧ nul ∉ twoDecimals k ∧
    Text.ofDigits 10 (numeral 10 (k / 100) ++ Text.pad 2 (numeral 10 (k % 100))) = k ∧
    (Text.pad 2 (numeral 10 (k % 100))).length = 2 := by
  obtain ⟨hunit, hrest⟩ := twoDecimals_eq hk
  obtain ⟨ha, haq, han, hav⟩ := digit_facts (k / 100) (by omega)
  obtain ⟨hb, hbq, hbn, hbv⟩ := digit_facts (k % 100 / 10) (by omega)
  obtain ⟨hc, hcq, hcn, hcv⟩ := digit_facts (k % 10) (by omega)
  have htext : twoDecimals k =
      [digit (k / 100), dot, digit (k % 100 / 10), digit (k % 10)] := by
    unfold twoDecimals
    rw [hunit, hrest]
    rfl
  rw [htext, hunit, hrest]
  refine ⟨?_, rfl, ?_, ?_, ?_, rfl⟩
  · intro c hmem
    simp only [mem_cons, not_mem_nil, or_false] at hmem
    rcases hmem with rfl | rfl | rfl | rfl
    · exact ha
    · decide
    · exact hb
    · exact hc
  · have hdot : quote ≠ dot := by decide
    simp [haq.symm, hbq.symm, hcq.symm, hdot]
  · have hdot : nul ≠ dot := by decide
    simp [han.symm, hbn.symm, hcn.symm, hdot]
  · unfold Text.ofDigits
    simp only [singleton_append, foldl_cons, foldl_nil, hav, hbv, hcv]
    omega

/-- **Hundredths are read as they were written.** -/
theorem number_twoDecimals (hk : k ≤ 100) :
    number (twoDecimals k) = some (.fin (Double.round (k / 100))) := by
  obtain ⟨-, hlen, -, hnul, hvalue, htwo⟩ := twoDecimals_facts hk
  have hne : twoDecimals k ≠ [] := by
    intro hnil
    rw [hnil] at hlen
    cases hlen
  refine number_eq hne hnul ?_
  have hsmall : |(k : ℚ) / 100| ≤ 2 ^ 64 := by
    have hcast : (k : ℚ) ≤ 100 := by exact_mod_cast hk
    rw [abs_of_nonneg (by positivity)]
    linarith
  unfold twoDecimals
  rw [strtod_point (Text.numeral_ne_nil 10 _) (Text.value_numeral (by norm_num) (by norm_num) _)
    (Text.value_pad (by norm_num) (by norm_num) 2 _), hvalue, htwo, ← Double.ofRat_fin hsmall]
  congr 2

/-- What a number of the window looks like. -/
theorem decimal_facts {n : ℕ} (hn : n ≤ 20) : (∀ c ∈ decimal (n : ℕ), numChar c = true) ∧
    (decimal (n : ℕ)).length ≤ 2 ∧ quote ∉ decimal (n : ℕ) ∧ nul ∉ decimal (n : ℕ) ∧
    decimal (n : ℕ) = numeral 10 n := by
  have hdecimal : decimal (n : ℕ) = numeral 10 n := by
    unfold decimal
    rw [if_neg (by omega), nil_append, Int.natAbs_natCast]
  rw [hdecimal]
  by_cases hten : n < 10
  · obtain ⟨ha, haq, han, -⟩ := digit_facts n hten
    rw [Double.numeral_of_lt hten]
    simp [ha, haq.symm, han.symm]
  · obtain ⟨ha, haq, han, -⟩ := digit_facts (n / 10) (by omega)
    obtain ⟨hb, hbq, hbn, -⟩ := digit_facts (n % 10) (by omega)
    rw [numeral_two (by omega) (by omega)]
    simp [ha, haq.symm, han.symm, hb, hbq.symm, hbn.symm]

/-- **A number of the window is read as it was written.** -/
theorem number_decimal {n : ℕ} (hn : n ≤ 20) :
    (number (decimal n)).map truncate = some (n : ℤ) := by
  obtain ⟨-, -, -, hnul, hdecimal⟩ := decimal_facts hn
  have hstops : Double.Stops [] := fun c hc => by cases hc
  have hread := Double.strtod_numeral n hstops
  rw [append_nil] at hread
  have hsmall : |(n : ℚ)| ≤ 2 ^ 64 := by
    have hcast : (n : ℚ) ≤ 20 := by exact_mod_cast hn
    rw [abs_of_nonneg (by positivity)]
    linarith
  have hround : Double.round (n : ℚ) = n := by
    have hint := @Double.round_intCast (n : ℤ) (by rw [abs_of_nonneg (by omega)]; omega)
    exact_mod_cast hint
  rw [hdecimal] at hnul ⊢
  rw [number_eq (Text.numeral_ne_nil 10 n) hnul hread, Double.ofRat_fin hsmall, hround, map_some]
  unfold truncate
  dsimp only
  rw [if_neg (by simp), Int.floor_natCast]
  congr 1
  omega

/-- Hundredths are far enough from 0 and from 1 for the rounding not to matter. -/
theorem between_round (hk : 0 < k ∧ k < 100) :
    0 < Double.round (k / 100) ∧ Double.round ((k : ℚ) / 100) < 1 := by
  have hlo : (1 : ℚ) ≤ k := by exact_mod_cast hk.1
  have hhi : (k : ℚ) ≤ 99 := by exact_mod_cast Nat.le_of_lt_succ hk.2
  have herr := abs_le.mp (Double.abs_round_sub_le (k / 100))
  have htiny := Double.tiny_le
  rw [abs_of_nonneg (by positivity)] at herr
  have hsmall : (k : ℚ) / 100 / 2 ^ 53 ≤ 1 / 1024 := by
    rw [div_le_iff₀ (by positivity)]
    norm_num
    linarith
  exact ⟨by linarith [herr.1], by linarith [herr.2]⟩

/-- What is written as a probability is one, unless it is written as 0 or 1. -/
theorem between_hundredths (hk : k ≤ 100) :
    between (.fin (Double.round (k / 100))) = if 0 < k ∧ k < 100 then
      some (Double.round (k / 100)) else none := by
  by_cases hinside : 0 < k ∧ k < 100
  · rw [if_pos hinside]
    exact if_pos (between_round hinside)
  · rw [if_neg hinside]
    rcases Nat.eq_zero_or_pos k with rfl | hpos
    · rw [Nat.cast_zero, zero_div, Double.round_zero]
      rfl
    · obtain rfl : k = 100 := by omega
      have hone : Double.round ((100 : ℕ) / 100) = 1 := by
        have hint := @Double.round_intCast 1 (by norm_num)
        push_cast at hint ⊢
        rw [div_self (by norm_num), hint]
      rw [hone]
      rfl

/-- Single precision is exact to 24 binary digits below 1. -/
theorem abs_toFloat_sub_le (hlo : 0 ≤ x) (hhi : x ≤ 1) : |toFloat x - x| ≤ 1 / 2 ^ 24 := by
  have hlog : Int.log 2 |x| ≤ 0 := by
    rw [abs_of_nonneg hlo]
    rcases hlo.eq_or_lt with rfl | hx
    · rw [Int.log_zero_right]
    · exact (Int.log_mono_right hx hhi).trans_eq (Int.log_one_right 2)
  have hplace : Single.place x ≤ -23 := by
    unfold Single.place
    omega
  have hpos := Double.two_zpow_pos (Single.place x)
  have hpow : (2 : ℚ) ^ Single.place x ≤ 1 / 2 ^ 23 := by
    have hmono := zpow_le_zpow_right₀ (by norm_num : (1 : ℚ) ≤ 2) hplace
    rwa [zpow_neg, ← one_div] at hmono
  have hround := Double.abs_roundEven_sub_le (x / 2 ^ Single.place x)
  have heq : toFloat x - x = (roundEven (x / 2 ^ Single.place x) - x / 2 ^ Single.place x) *
      2 ^ Single.place x := by
    unfold toFloat
    rw [sub_mul, div_mul_cancel₀ _ hpos.ne']
  rw [heq, abs_mul, abs_of_pos hpos]
  calc |(roundEven (x / 2 ^ Single.place x) : ℚ) - x / 2 ^ Single.place x| * 2 ^ Single.place x
      ≤ 1 / 2 * (1 / 2 ^ 23) := mul_le_mul hround hpow hpos.le (by norm_num)
    _ = 1 / 2 ^ 24 := by norm_num

/-- An integer that a number is near to. -/
theorem roundEven_eq {n : ℤ} (h : |x - n| < 1 / 2) : roundEven x = n := by
  have hround := abs_le.mp (Double.abs_roundEven_sub_le x)
  have hnear := abs_lt.mp h
  have hlo : ((n - 1 : ℤ) : ℚ) < roundEven x := by push_cast; linarith [hround.1, hnear.1]
  have hhi : (roundEven x : ℚ) < ((n + 1 : ℤ) : ℚ) := by push_cast; linarith [hround.2, hnear.2]
  have hlo' := Int.cast_lt.mp hlo
  have hhi' := Int.cast_lt.mp hhi
  omega

/-- **Hundredths stay what they are.** -/
theorem hundredths_toFloat (hk : 0 < k ∧ k < 100) :
    hundredths (toFloat (Double.round (k / 100))) = k := by
  have hinside := between_round hk
  have hsingle := abs_le.mp (abs_toFloat_sub_le hinside.1.le hinside.2.le)
  have hdouble := abs_le.mp (Double.abs_round_sub_le (k / 100))
  have htiny := Double.tiny_le
  have hsmall : |(k : ℚ) / 100| / 2 ^ 53 ≤ 1 / 1024 := by
    have hhi : (k : ℚ) ≤ 99 := by exact_mod_cast Nat.le_of_lt_succ hk.2
    rw [abs_of_nonneg (by positivity), div_le_iff₀ (by positivity)]
    norm_num
    linarith
  have hround : roundEven (100 * toFloat (Double.round (k / 100))) = (k : ℤ) := by
    refine roundEven_eq (abs_lt.mpr ?_)
    push_cast
    constructor
    · linarith [hsingle.1, hdouble.1]
    · linarith [hsingle.2, hdouble.2]
  unfold hundredths
  rw [hround, Int.toNat_natCast]

/-! ### The rows -/

/-- The rows, nothing of them cut. -/
def wholeRows (i : Info) : List Row :=
  rowsOf i (escaped i.name) (escaped i.author) (escaped i.website)
    (listed (pieces comma [] i.langs))

/-- **Nothing is cut as it is written.** -/
theorem rows_eq (hi : i.Sound) (hname : ∀ c ∈ i.name, 0x20 ≤ c) : rows i = wholeRows i := by
  have hn : jesc 200 [] i.name = escaped i.name := by
    have hlen := hi.name_le
    exact jesc_eq hname (by rw [length_nil]; omega)
  have ha : jesc 200 [] i.author = escaped i.author := by
    have hlen := hi.author.1
    exact jesc_eq hi.author.2 (by rw [length_nil]; omega)
  have hw : jesc 400 [] i.website = escaped i.website := by
    have hlen := hi.website.1
    exact jesc_eq hi.website.2 (by rw [length_nil]; omega)
  unfold rows wholeRows
  rw [hn, ha, hw, langsText_eq hi.langs.shown]

theorem hundredths_le (hi : i.Sound) : hundredths i.cutoff ≤ 100 := by
  have hle : roundEven (100 * i.cutoff) ≤ 100 :=
    Double.roundEven_le (by have := hi.cutoff.2; push_cast; linarith)
  unfold hundredths
  omega

theorem length_more_le {ps : List Bytes} (hps : ∀ p ∈ ps, ∀ c ∈ p, 0x20 ≤ c) :
    (ps.flatMap more).length ≤ 4 * Text.room ps := by
  induction ps with
  | nil => exact Nat.zero_le _
  | cons q ps ih =>
    have hq := length_escaped_le (hps q mem_cons_self)
    have hrest := ih fun p hp => hps p (mem_cons_of_mem q hp)
    have hlength : (more q).length = (escaped q).length + 4 := by
      unfold more
      rw [length_cons, length_cons, length_quoted]
    rw [flatMap_cons, length_append, Text.room_cons, hlength]
    omega

theorem length_listed_le {ps : List Bytes} (hps : ∀ p ∈ ps, ∀ c ∈ p, 0x20 ≤ c) :
    (listed ps).length ≤ 4 * Text.room ps := by
  cases ps with
  | nil => exact Nat.zero_le _
  | cons p ps =>
    have hp := length_escaped_le (hps p mem_cons_self)
    have hrest := length_more_le fun q hq => hps q (mem_cons_of_mem p hq)
    unfold listed
    rw [length_append, length_quoted, Text.room_cons]
    omega

theorem le_length_listed (ps : List Bytes) : ps.length ≤ (listed ps).length := by
  cases ps with
  | nil => exact le_rfl
  | cons p ps =>
    have hmore : ps.length ≤ (ps.flatMap more).length := by
      rw [length_flatMap]
      refine (length_map (fun q => (more q).length)).symm.le.trans
        (length_le_sum_of_one_le _ fun n hn => ?_)
      obtain ⟨q, -, rfl⟩ := mem_map.mp hn
      exact Nat.succ_le_of_lt (Nat.zero_lt_succ _)
    unfold listed
    rw [length_append, length_quoted, length_cons]
    omega

/-- The pieces of the languages, within their bounds. -/
theorem pieces_langs {l : Bytes} (h : Langs l) : Text.room (pieces comma [] l) ≤ 63 ∧
    ∀ p ∈ pieces comma [] l, (∀ c ∈ p, 0x20 ≤ c) ∧ p.length ≤ 61 := by
  have hlen := h.shown.1
  have hroom := Text.room_pieces comma [] l
  rw [length_nil] at hroom
  refine ⟨by omega, fun p hp => ⟨fun c hc => ?_, ?_⟩⟩
  · rcases Text.mem_pieces hp c hc with hc | hc
    · cases hc
    · exact h.shown.2 c hc
  · by_cases hcomma : comma ∈ l
    · have := Text.length_piece_lt hcomma hp
      rw [length_nil] at this
      omega
    · have hone := h.one hcomma
      have hle := Text.length_le_room hp
      omega

/-- The keys of a manifest, in their order. -/
def keys : List Bytes :=
  [text "type", text "wake_word", text "author", text "website", text "model",
    text "trained_languages", text "version", text "micro", text "probability_cutoff",
    text "sliding_window_size", text "feature_step_size"]

/-- The texts of the format: the keys are different ones, of letters; neither value is escaped; of
the others none is long, and no number goes on in what follows it. -/
theorem format_facts : ((∀ k ∈ keys, Plain k ∧ k.length ≤ 19) ∧ keys.Nodup) ∧
    (∀ s ∈ [text "micro", text "model.tflite"], escaped s = s ∧ s.length < 64 ∧ ∀ c ∈ s, 0x20 ≤ c) ∧
    (∀ t ∈ [text ",\n  ", text "2", text "10", text "\x7b", text "\n    ", text ",\n    ",
      text "\n  \x7d\n\x7d\n", text "\x7b\n  "], quote ∉ t ∧ t.length ≤ 10) ∧
    (∀ t ∈ [text ",\n    ", text "\n  \x7d\n\x7d\n"], t.head?.map numChar = some false) ∧
    (text "10" ≠ [] ∧ (∀ c ∈ text "10", numChar c = true) ∧ number (text "10") = some (.fin 10)) ∧
    text ",\n  " = comma :: [lf, space, space] := by
  decide +kernel

theorem keys_facts : (∀ k ∈ keys, Plain k ∧ k.length ≤ 19) ∧ keys.Nodup := format_facts.1

theorem texts_facts : ∀ t ∈ [text ",\n  ", text "2", text "10", text "\x7b", text "\n    ",
      text ",\n    ", text "\n  \x7d\n\x7d\n",
    text "\x7b\n  "], quote ∉ t ∧ t.length ≤ 10 := format_facts.2.2.1

theorem comma_after : text ",\n  " = comma :: [lf, space, space] := format_facts.2.2.2.2.2

theorem quote_notMem_after : quote ∉ [lf, space, space] := by decide

theorem Row.length_text (r : Row) :
    r.text.length = r.key.length + r.value.length + r.after.length + 4 := by
  unfold Row.text
  simp only [length_append, length_quoted, length_cons]
  omega

/-- **The search for a key passes over every value**, and none is long. -/
theorem values_passed (hi : i.Sound) (hname : ∀ c ∈ i.name, 0x20 ≤ c) :
    ∀ r ∈ wholeRows i, Passed r.value r.after ∧ r.value.length + r.after.length ≤ 370 := by
  -- a string of the user's, and one of the format
  have hstring : ∀ s : Bytes, s.length < 160 → (∀ c ∈ s, 0x20 ≤ c) →
      Passed (quoted (escaped s)) (text ",\n  ") ∧
      (quoted (escaped s)).length + (text ",\n  ").length ≤ 370 := by
    intro s hs hshown
    have hesc := length_escaped_le hshown
    rw [comma_after]
    refine ⟨passed_quoted s quote_notMem_after, ?_⟩
    rw [length_quoted]
    simp only [length_cons, length_nil]
    omega
  obtain ⟨hmicro, hmicroLen, hmicroShown⟩ := format_facts.2.1 (text "micro") (by simp)
  obtain ⟨hmodel, hmodelLen, hmodelShown⟩ := format_facts.2.1 (text "model.tflite") (by simp)
  obtain ⟨hroom, hpieces⟩ := pieces_langs hi.langs
  have hlangs := length_listed_le fun p hp => (hpieces p hp).1
  obtain ⟨-, hdecimals, hdecimalsQuote, -⟩ := twoDecimals_facts (hundredths_le hi)
  obtain ⟨n, hn⟩ : ∃ n : ℕ, i.window = n := ⟨i.window.toNat, by have := hi.window; omega⟩
  obtain ⟨-, hwindow, hwindowQuote, -⟩ := @decimal_facts n (by have := hi.window; omega)
  have hname_len := hi.name_le
  have hauthor_len := hi.author.1
  have hplain : ∀ value after : Bytes, quote ∉ value → value.length ≤ 10 →
      quote ∉ after ∧ after.length ≤ 10 →
      Passed value after ∧ value.length + after.length ≤ 370 :=
    fun value after hvalue hlen hafter => ⟨passed_plain hvalue hafter.1, by omega⟩
  unfold wholeRows rowsOf
  rw [hn]
  intro r hr
  simp only [mem_cons, not_mem_nil, or_false] at hr
  rcases hr with rfl | rfl | rfl | rfl | rfl | rfl | rfl | rfl | rfl | rfl | rfl
  · have h := hstring (text "micro") (hmicroLen.trans (by norm_num)) hmicroShown
    rwa [hmicro] at h
  · exact hstring i.name (by omega) hname
  · exact hstring i.author (by omega) hi.author.2
  · exact hstring i.website hi.website.1 hi.website.2
  · have h := hstring (text "model.tflite") (hmodelLen.trans (by norm_num)) hmodelShown
    rwa [hmodel] at h
  · refine ⟨fun key hkey l => ?_, ?_⟩
    · show jkey key (lbracket :: listed (pieces comma [] i.langs) ++ [rbracket] ++
        (text ",\n  " ++ l)) = _
      rw [comma_after, append_assoc, cons_append, jkey_cons, labelAt_ne (by decide), none_or,
        singleton_append, jkey_listed hkey,
        jkey_passed (not_mem_cons_of_ne_of_not_mem (by decide) quote_notMem_after)]
    · rw [comma_after]
      simp only [length_append, length_cons, length_nil]
      omega
  · exact hplain _ _ (texts_facts _ (by simp)).1 (texts_facts _ (by simp)).2
      (texts_facts _ (by simp))
  · exact hplain _ _ (texts_facts _ (by simp)).1 (texts_facts _ (by simp)).2
      (texts_facts _ (by simp))
  · exact hplain _ _ hdecimalsQuote (hdecimals.le.trans (by norm_num)) (texts_facts _ (by simp))
  · exact hplain _ _ hwindowQuote (hwindow.trans (by norm_num)) (texts_facts _ (by simp))
  · exact hplain _ _ (texts_facts _ (by simp)).1 (texts_facts _ (by simp)).2
      (texts_facts _ (by simp))

theorem mem_keys {r : Row} (hr : r ∈ wholeRows i) : r.key ∈ keys := mem_map_of_mem hr

/-! ### What is found in what was written -/

section Found

variable {i : Info} (hi : i.Sound) (hname : ∀ c ∈ i.name, 0x20 ≤ c)
include hi hname

theorem length_manifest_le : (manifest i).length ≤ 8192 := by
  have hrows : ∀ rs : List Row, (∀ r ∈ rs, r.text.length ≤ 400) →
      (rs.flatMap Row.text).length ≤ 400 * rs.length := by
    intro rs
    induction rs with
    | nil => exact fun _ => Nat.zero_le _
    | cons r rs ih =>
      intro h
      have hr := h r mem_cons_self
      have hrest := ih fun r' hr' => h r' (mem_cons_of_mem r hr')
      rw [flatMap_cons, length_append, length_cons]
      omega
  have hall := hrows (wholeRows i) fun r hr => by
    have hvalue := (values_passed hi hname r hr).2
    have hkey := (keys_facts.1 r.key (mem_keys hr)).2
    rw [Row.length_text]
    omega
  have hcount : (wholeRows i).length = 11 := rfl
  have hstart := (texts_facts (text "\x7b\n  ") (by simp)).2
  unfold manifest
  rw [rows_eq hi hname, length_append]
  omega

/-- **The value of each key is found**, whatever the others are. -/
theorem jkey_manifest {n : ℕ} {r : Row} (hr : (wholeRows i)[n]? = some r) :
    ∃ rest, jkey r.key (manifest i) = some (skipWs (r.value ++ (r.after ++ rest))) := by
  obtain ⟨hn, hget⟩ := List.getElem?_eq_some_iff.mp hr
  have hmem : r ∈ wholeRows i := hget ▸ getElem_mem hn
  have hsplit : wholeRows i = (wholeRows i).take n ++ r :: (wholeRows i).drop (n + 1) := by
    rw [← hget, getElem_cons_drop, take_append_drop]
  -- no key stands in two rows
  have hne : ∀ r' ∈ (wholeRows i).take n, r'.key ≠ r.key := by
    have hnodup : ((wholeRows i).map Row.key).Nodup := keys_facts.2
    rw [hsplit, map_append, map_cons, nodup_append] at hnodup
    exact fun r' hr' => hnodup.2.2 _ (mem_map_of_mem hr') _ mem_cons_self
  have hmanifest : manifest i =
      text "\x7b\n  " ++
      ((wholeRows i).take n ++ r :: (wholeRows i).drop (n + 1)).flatMap Row.text := by
    unfold manifest
    rw [rows_eq hi hname]
    exact congrArg (fun rs => text "\x7b\n  " ++ rs.flatMap Row.text) hsplit
  rw [hmanifest]
  refine ⟨((wholeRows i).drop (n + 1)).flatMap Row.text,
    jkey_rows (keys_facts.1 _ (mem_keys hmem)).1 (fun r' hr' => ?_) hne r.value r.after _
      (texts_facts (text "\x7b\n  ") (by simp)).1⟩
  have hr'' := mem_of_mem_take hr'
  exact ⟨(keys_facts.1 _ (mem_keys hr'')).1, (values_passed hi hname r' hr'').1⟩

/-- **A string is read as it was.** -/
theorem getStr_manifest {n : ℕ} {key s : Bytes} {cap : ℕ}
    (hr : (wholeRows i)[n]? = some ⟨key, quoted (escaped s), text ",\n  "⟩)
    (hs : ∀ c ∈ s, 0x20 ≤ c) (hcap : s.length < cap) : getStr (manifest i) key cap = (true, s) := by
  obtain ⟨rest, hfound⟩ := jkey_manifest hi hname hr
  have hskip : skipWs (quoted (escaped s) ++ (text ",\n  " ++ rest)) =
      quote :: (escaped s ++ quote :: (text ",\n  " ++ rest)) := by
    unfold skipWs
    rw [quoted, cons_append, cons_append, dropWhile_cons_of_neg (by decide), append_assoc]
    rfl
  dsimp only at hfound
  rw [hskip] at hfound
  have hread := @jstr_escaped s cap [] (text ",\n  " ++ rest) hs (by rw [length_nil]; omega)
  unfold getStr
  rw [hfound]
  dsimp only
  rw [if_pos rfl, hread]
  rfl

/-- **A number is read as it was.** -/
theorem getNum_manifest {n : ℕ} {key t after : Bytes}
    (hr : (wholeRows i)[n]? = some ⟨key, t, after⟩) (hne : t ≠ []) (ht : ∀ d ∈ t, numChar d = true)
    (hlen : t.length < 31) (hafter : after.head?.map numChar = some false) :
    getNum (manifest i) key = number t := by
  obtain ⟨c, hhead, hc⟩ := map_eq_some_iff.mp hafter
  obtain ⟨l, rfl⟩ : ∃ l, after = c :: l := ⟨_, eq_cons_of_mem_head? hhead⟩
  obtain ⟨rest, hfound⟩ := jkey_manifest hi hname hr
  obtain ⟨d, t', rfl⟩ : ∃ d t', t = d :: t' := exists_cons_of_ne_nil hne
  have hskip : skipWs (d :: t' ++ (c :: l ++ rest)) = d :: t' ++ c :: (l ++ rest) := by
    unfold skipWs
    rw [cons_append,
      dropWhile_cons_of_neg (by rw [numChar_space (ht d mem_cons_self)]; exact Bool.false_ne_true)]
    rfl
  dsimp only at hfound
  rw [hskip] at hfound
  unfold getNum
  rw [hfound, bind_some, takeWhile_number ht hlen hc]

/-- **The languages are read as they were**, the empty ones left out. -/
theorem trainedLanguages_manifest : trainedLanguages (manifest i) =
    [comma].intercalate ((pieces comma [] i.langs).filter (· ≠ [])) := by
  obtain ⟨rest, hfound⟩ := @jkey_manifest i hi hname 5 _ rfl
  obtain ⟨hroom, hpieces⟩ := pieces_langs hi.langs
  have hskip : ∀ v, skipWs (lbracket :: v) = lbracket :: v :=
    fun v => dropWhile_cons_of_neg (by decide)
  have hinner : ∀ l, skipWs (listed (pieces comma [] i.langs) ++ rbracket :: l) =
      listed (pieces comma [] i.langs) ++ rbracket :: l := by
    intro l
    cases pieces comma [] i.langs with
    | nil => exact dropWhile_cons_of_neg (by decide)
    | cons p ps => exact dropWhile_cons_of_neg (by decide)
  dsimp only at hfound
  rw [cons_append, cons_append, hskip, append_assoc, singleton_append] at hfound
  unfold trainedLanguages
  rw [hfound]
  dsimp only
  rw [if_pos rfl, hinner,
    langsLoop_listed (fun p hp => ⟨(hpieces p hp).1, by have := (hpieces p hp).2; omega⟩)
    (by rw [length_append]; have := le_length_listed (pieces comma [] i.langs); omega),
    foldl_addLang_nil hroom fun p hp => (hpieces p hp).2]

/-- **What is read of what was written.** -/
theorem manifestParse_manifest : manifestParse (manifest i) =
    if 0 < hundredths i.cutoff ∧ hundredths i.cutoff < 100 then
      .ok { i with
        langs := [comma].intercalate ((pieces comma [] i.langs).filter (· ≠ []))
        cutoff := toFloat (Double.round (hundredths i.cutoff / 100)) }
    else .error (text "manifest without a probability_cutoff") := by
  obtain ⟨-, hfixed, htexts, hafter, ⟨hten, hnums, hnumber⟩, -⟩ := format_facts
  obtain ⟨hmicro, hmicroLen, hmicroShown⟩ := hfixed (text "micro") (by simp)
  have htype : getStr (manifest i) (text "type") 64 = (true, text "micro") :=
    @getStr_manifest i hi hname 0 _ (text "micro") 64 (by rw [hmicro]; rfl) hmicroShown hmicroLen
  have hword : getStr (manifest i) (text "wake_word") 64 = (true, i.name) :=
    @getStr_manifest i hi hname 1 _ i.name 64 rfl hname (Nat.lt_succ_of_le hi.name_le)
  have hauthor : getStr (manifest i) (text "author") 64 = (true, i.author) :=
    @getStr_manifest i hi hname 2 _ i.author 64 rfl hi.author.2 hi.author.1
  have hwebsite : getStr (manifest i) (text "website") 160 = (true, i.website) :=
    @getStr_manifest i hi hname 3 _ i.website 160 rfl hi.website.2 hi.website.1
  have hk := hundredths_le hi
  obtain ⟨hdigits, hlen, -⟩ := twoDecimals_facts hk
  have hcutoff : getNum (manifest i) (text "probability_cutoff") =
      some (.fin (Double.round (hundredths i.cutoff / 100))) := by
    rw [← number_twoDecimals hk]
    refine @getNum_manifest i hi hname 8 _ _ _ rfl ?_ hdigits (by omega) (hafter _ (by simp))
    intro hnil
    rw [hnil] at hlen
    cases hlen
  obtain ⟨n, hn⟩ : ∃ n : ℕ, i.window = n := ⟨i.window.toNat, by have := hi.window; omega⟩
  have hn20 : n ≤ 20 := by have := hi.window; omega
  obtain ⟨hwdigits, hwlen, -, -, hwnumeral⟩ := decimal_facts hn20
  have hwne : decimal n ≠ [] := hwnumeral ▸ Text.numeral_ne_nil 10 n
  have hwindow : (getNum (manifest i) (text "sliding_window_size")).map truncate =
      some i.window := by
    rw [hn, ← number_decimal hn20]
    refine congrArg _ (@getNum_manifest i hi hname 9 _ _ _ (by rw [← hn]; rfl) hwne hwdigits
      (by omega) (hafter _ (by simp)))
  have hstep : (getNum (manifest i) (text "feature_step_size")).map truncate = some 10 := by
    have hnum : getNum (manifest i) (text "feature_step_size") = number (text "10") :=
      @getNum_manifest i hi hname 10 _ _ _ rfl hten hnums
        ((htexts _ (by simp)).2.trans_lt (by norm_num)) (hafter _ (by simp))
    rw [hnum, hnumber]
    decide
  have hok : ∀ {c : Prop} [Decidable c] {e : Bytes}, ¬ c → refuse c e = .ok () :=
    fun h => refuse_ok.mpr h
  unfold manifestParse
  rw [htype, hword, hauthor, hwebsite, hcutoff, hwindow, hstep, trainedLanguages_manifest hi hname]
  dsimp only
  rw [hok (Nat.not_lt.mpr (length_manifest_le hi hname)), hok (by simp), hok (by simp [hi.name_ne])]
  simp only [Except.ok_bind, bind_some, between_hundredths hk, getD_some]
  by_cases hcond : 0 < hundredths i.cutoff ∧ hundredths i.cutoff < 100
  · rw [if_pos hcond, if_pos hcond]
    simp only [orFail, elim_some, Except.ok_bind]
    have hwin : ¬ (i.window < 1 ∨ 20 < i.window) := by have := hi.window; omega
    have hten : ¬ (10 : ℤ) ≠ 10 := fun h => h rfl
    rw [hok hwin, Except.ok_bind, hok hten]
    rfl
  · rw [if_neg hcond, if_neg hcond]
    simp only [orFail, elim_none, Except.error_bind]

end Found

/-! ### The round trip -/

/-- What was written is read with the same name, author, website, languages and window, and with the
two decimals of the cutoff. -/
def ReadsBack (i : Info) : Prop :=
  ∃ j, manifestParse (manifest i) = .ok j ∧ j.name = i.name ∧ j.author = i.author ∧
    j.website = i.website ∧
    j.langs = i.langs ∧ j.window = i.window ∧
    j.cutoff = toFloat (Double.round (hundredths i.cutoff / 100)) ∧
    hundredths j.cutoff = hundredths i.cutoff

theorem roundEven_of_floor {n : ℤ} (hlo : (n : ℚ) ≤ x) (hhi : x < n + 1) :
    roundEven x = if x - n < 1 / 2 then n else if 1 / 2 < x - n then n + 1 else if n % 2 = 0 then n
      else n + 1 := by
  have hfloor : ⌊x⌋ = n := Int.floor_eq_iff.mpr ⟨hlo, hhi⟩
  unfold roundEven
  rw [hfloor]

/-- Two decimals are more than none from above half a hundredth on. -/
theorem roundEven_pos (hx : 0 ≤ x) : 0 < roundEven x ↔ 1 / 2 < x := by
  by_cases hone : x < 1
  · rw [@roundEven_of_floor x 0 (by simpa using hx) (by simpa using hone), Int.cast_zero, sub_zero]
    constructor
    · intro h
      by_contra hle
      split at h
      · omega
      · rw [if_pos (by decide)] at h
        omega
    · intro h
      rw [if_neg (by linarith), if_pos h]
      norm_num
  · have hle : 1 ≤ roundEven x := Double.le_roundEven (by push_cast; linarith)
    exact ⟨fun _ => by linarith, fun _ => by omega⟩

/-- They are less than a hundred up to half a hundredth below. -/
theorem roundEven_lt : roundEven x < 100 ↔ x < 199 / 2 := by
  by_cases hlo : x ≤ 99
  · have hle : roundEven x ≤ 99 := Double.roundEven_le (by push_cast; exact hlo)
    exact ⟨fun _ => by linarith, fun _ => by omega⟩
  · by_cases hhi : x < 100
    · rw [@roundEven_of_floor x 99 (by push_cast; linarith) (by push_cast; linarith)]
      push_cast
      constructor
      · intro h
        by_contra hle
        rw [if_neg (by linarith)] at h
        split at h <;> omega
      · intro h
        rw [if_pos (by linarith)]
        norm_num
    · have hle : 100 ≤ roundEven x := Double.le_roundEven (by push_cast; linarith)
      exact ⟨fun _ => by omega, fun _ => by linarith⟩

/-- A cutoff that two decimals do not make 0 or 1. -/
theorem hundredths_between (hi : i.Sound) :
    0 < hundredths i.cutoff ∧ hundredths i.cutoff < 100 ↔
    1 / 200 < i.cutoff ∧ i.cutoff < 199 / 200 := by
  have hpos := hi.cutoff.1
  have hround : 0 ≤ roundEven (100 * i.cutoff) := Double.le_roundEven (by push_cast; linarith)
  have hlo : 0 < hundredths i.cutoff ↔ 0 < roundEven (100 * i.cutoff) := by
    unfold hundredths
    omega
  have hhi : hundredths i.cutoff < 100 ↔ roundEven (100 * i.cutoff) < 100 := by
    unfold hundredths
    omega
  rw [hlo, hhi, roundEven_pos (by linarith), roundEven_lt]
  constructor
  · exact fun h => ⟨by linarith [h.1], by linarith [h.2]⟩
  · exact fun h => ⟨by linarith [h.1], by linarith [h.2]⟩

/-- **A manifest is read as it was written** if and only if the name has no control character, no
language is empty, and the cutoff is neither below a half of a hundredth nor above 99 and a half of
them. -/
theorem manifest_round_trip (i : Info) (h : Stored i) :
    ReadsBack i ↔ (∀ c ∈ i.name, 0x20 ≤ c) ∧ (i.langs = [] ∨ [] ∉ i.langs.splitOn comma) ∧
      1 / 200 < i.cutoff ∧ i.cutoff < 199 / 200 := by
  have hi := h.sound
  by_cases hname : ∀ c ∈ i.name, 0x20 ≤ c
  · have hparse := manifestParse_manifest hi hname
    rw [← hundredths_between hi, ← Text.intercalate_pieces comma i.langs]
    constructor
    · rintro ⟨j, hj, -, -, -, hlangs, -⟩
      rw [hparse] at hj
      split at hj
      · next hcond =>
        rw [← Except.ok.inj hj] at hlangs
        exact ⟨hname, hlangs, hcond⟩
      · cases hj
    · rintro ⟨-, hlangs, hcond⟩
      rw [if_pos hcond] at hparse
      exact ⟨_, hparse, rfl, rfl, rfl, hlangs, rfl, rfl, hundredths_toFloat hcond⟩
  · -- what is read never has a control character
    constructor
    · rintro ⟨j, hj, heq, -⟩
      rw [← heq] at hname
      exact absurd (manifestParse_sound hj).2 hname
    · exact fun hall => absurd hall.1 hname

/-- A manifest that came with a model. -/
def jarvis : Bytes :=
  text "\x7b\"wake_word\": \"Jarvis\", \"micro\": \x7b\"probability_cutoff\": 0.97\x7d\x7d"

/-- What is read of it. -/
def jarvisInfo : Info :=
  { name := text "Jarvis", cutoff := toFloat (Double.round (97 / 100)), window := 5 }

/-- The model is added, its cutoff is within the bounds, and the settings page may put a tab in its
name. -/
theorem jarvis_facts :
    (manifestParse jarvis = .ok jarvisInfo ∧ goodId (text "jarvis") = true ∧ jarvis ≠ []) ∧
    ((∀ c ∈ jarvisInfo.name, 0x20 ≤ c) ∧ 1 / 200 < min cutoffMax (max cutoffMin jarvisInfo.cutoff) ∧
      min cutoffMax (max cutoffMin jarvisInfo.cutoff) < 199 / 200) ∧
    editInfo jarvisInfo (text "name=a\tb") = .ok { jarvisInfo with name := text "a\tb" } ∧
    tab ∈ text "a\tb" := by
  decide +kernel

theorem manifestParse_jarvis : manifestParse jarvis = .ok jarvisInfo := jarvis_facts.1.1

/-- The manifest is read as it is written anew. -/
theorem manifest_round_trip_jarvis :
    ReadsBack { jarvisInfo with cutoff := min cutoffMax (max cutoffMin jarvisInfo.cutoff) } := by
  have hadd : addInfo (text "jarvis") jarvis =
      .ok { jarvisInfo with cutoff := min cutoffMax (max cutoffMin jarvisInfo.cutoff) } := by
    unfold addInfo
    rw [if_pos jarvis_facts.1.2.1, if_neg jarvis_facts.1.2.2, manifestParse_jarvis]
    rfl
  obtain ⟨hname, hlo, hhi⟩ := jarvis_facts.2.1
  exact (manifest_round_trip _ (Stored.add hadd)).mpr ⟨hname, Or.inl rfl, hlo, hhi⟩

/-- **A tab in a name is lost**: of what `name=a<TAB>b` makes the settings page write, another name
is read. -/
theorem manifest_loses_tab : ∃ i, Stored i ∧ i.name = text "a\tb" ∧ ¬ ReadsBack i := by
  obtain ⟨hedit, htab⟩ := jarvis_facts.2.2
  refine ⟨_, Stored.edit manifestParse_jarvis hedit, rfl, ?_⟩
  rintro ⟨j, hj, hname, -⟩
  have hshown := (manifestParse_sound hj).2 tab (hname ▸ htab)
  exact absurd hshown (by decide)

end Hassmic.Mww
