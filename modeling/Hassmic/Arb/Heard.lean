import Hassmic.Arb.Book
import Hassmic.Arb.Kiosk
import Hassmic.Arb.Phrase

/-!
# Kiosk claims at both ends

A claim that one Echo sends is read by another, field by field.  It is taken as it was meant unless
its loudness is out of the range that is read, and its phrase is the one of the other Echo's round
unless the buffer cut the phrase right behind a space.

## Main definitions

* `CString` — a string of C.
* `Says` — an Echo opens a round the kiosk way.
* `Taken` — what is read of a claim is what was put in.

## Main results

* `kioskLoop_claimBody` — the members of a claim are read one after the other.
* `kioskParse_kioskText` — **what is read of a claim**.
* `kiosk_taken` — **when the claim names the same phrase at both ends**.
* `kiosk_cut` — a phrase that is cut off behind a space.
-/

namespace Hassmic.Arb

open Byte Text Option List

/-- A string of C. -/
abbrev CString := {l : Bytes // nul ∉ l}

/-! ### One member -/

theorem jws_cons {c : UInt8} (hc : isSpace c = false) (l : Bytes) : jws (c :: l) = c :: l := by
  unfold jws
  rw [dropWhile_cons, hc]
  rfl

/-- A key and a colon are read. -/
theorem kioskMember_eq (s : Seen) {key l : Bytes}
    (hkey : ∀ c ∈ key, 0x20 ≤ c ∧ c ≠ quote ∧ c ≠ backslash) (hlen : key.length < 16)
    (hl : jws l = l) :
    kioskMember s (key ++ quote :: colon :: l) = kioskValue (fieldOf (cstr key)) s l := by
  have hcolon : literal [colon] (jws (colon :: l)) = some l := by
    rw [jws_cons (by decide)]
    exact literal_append [colon] l
  unfold kioskMember
  rw [jstring_plain _ hkey hlen]
  simp only [bind_eq_bind, bind_some, hcolon, hl]

/-- A member and the comma behind it. -/
theorem kioskLoop_comma {k : ℕ} {s t : Seen} {l r : Bytes}
    (h : kioskMember s l = some (t, comma :: r)) (hr : jws r = r) :
    kioskLoop (k + 1) s (quote :: l) = kioskLoop k t r := by
  have hquote : literal [quote] (quote :: l) = some l := literal_append [quote] l
  have hhead : (quote :: l).head? ≠ some rbrace := fun h => absurd (some.inj h) (by decide)
  rw [kioskLoop, if_neg hhead, hquote, bind_some, h]
  dsimp only
  rw [jws_cons (by decide)]
  dsimp only
  rw [if_pos rfl, hr]

/-- The last member. -/
theorem kioskLoop_end {k : ℕ} {s t : Seen} {l r : Bytes}
    (h : kioskMember s l = some (t, rbrace :: r)) :
    kioskLoop (k + 1) s (quote :: l) = some t := by
  have hquote : literal [quote] (quote :: l) = some l := literal_append [quote] l
  have hhead : (quote :: l).head? ≠ some rbrace := fun h => absurd (some.inj h) (by decide)
  rw [kioskLoop, if_neg hhead, hquote, bind_some, h]
  dsimp only
  rw [jws_cons (by decide)]
  dsimp only
  rw [if_neg (by decide), if_pos rfl]

theorem stops_comma (l : Bytes) : Double.Stops (comma :: l) := by
  intro c hc
  rw [← some.inj hc]
  decide

theorem stops_rbrace : Double.Stops [rbrace] := by
  intro c hc
  rw [← some.inj hc]
  decide

/-- The word of the first member. -/
def wake : Bytes := ascii ['w', 'a', 'k', 'e']

/-- Digits are no part of a fraction; hexadecimal ones, the names and the word of the first are
written without an escape. -/
theorem plain_facts : (∀ {c : UInt8}, value c < 10 → c ≠ dot ∧ c ≠ 0x65 ∧ c ≠ 0x45) ∧
    (∀ {c : UInt8}, value c < 16 → 0x20 ≤ c ∧ c ≠ quote ∧ c ≠ backslash ∧ c ≠ nul) ∧
    ∀ w ∈ [wake, ascii ['k', 's'], ascii ['v'], ascii ['i', 'd'], ascii ['n'],
      ascii ['p'], ascii ['e']], ∀ c ∈ w, 0x20 ≤ c ∧ c ≠ quote ∧ c ≠ backslash := by
  decide +kernel

theorem whole_digits (n : ℕ) (l : Bytes) :
    ((numeral 10 n ++ l).take ((numeral 10 n ++ l).length - l.length)).all
      (fun c => c ≠ dot ∧ c ≠ 0x65 ∧ c ≠ 0x45) = true := by
  have hlen : (numeral 10 n ++ l).length - l.length = (numeral 10 n).length := by
    rw [length_append]
    omega
  rw [hlen, List.take_left, List.all_eq_true]
  exact fun c hc =>
    decide_eq_true (plain_facts.1 (value_numeral (by norm_num) (by norm_num) n c hc))

/-- An integer of 53 digits is read as it is. -/
theorem ofRat_natCast {n : ℕ} (hn : n < 2 ^ 53) : Double.ofRat (n : ℚ) = .fin n := by
  have hround : Double.round ((n : ℤ) : ℚ) = ((n : ℤ) : ℚ) := by
    refine Double.round_intCast ?_
    rw [abs_of_nonneg (by positivity)]
    exact_mod_cast hn
  have hsize : |(n : ℚ)| ≤ 2 ^ 64 := by
    rw [abs_of_nonneg (by positivity)]
    have hcast : (n : ℚ) ≤ (2 ^ 53 : ℕ) := by exact_mod_cast hn.le
    exact hcast.trans (by norm_num)
  rw [Double.ofRat_fin hsize]
  exact congrArg Double.fin hround

/-! ### The members of a claim -/

section Members

variable {s : Seen} {r : Bytes}

theorem plain_names : ∀ w ∈ [wake, ascii ['k', 's'], ascii ['v'], ascii ['i', 'd'], ascii ['n'],
      ascii ['p'], ascii ['e']],
    ∀ c ∈ w, 0x20 ≤ c ∧ c ≠ quote ∧ c ≠ backslash := plain_facts.2.2

/-- A string under a key that was not met. -/
theorem kioskValue_string {f : Field} {l : Bytes} (h : s.has f = false) :
    kioskValue f s (quote :: l) = kioskString f s l := by
  have hhead : (quote :: l).head? = some quote := rfl
  unfold kioskValue
  rw [h, if_neg Bool.false_ne_true, if_pos hhead]
  rfl

theorem member_ks (hs : s.ks = none) :
    kioskMember s (ascii ['k', 's'] ++ quote :: colon :: quote :: (wake ++ quote :: r)) =
      some ({ s with ks := some wake }, r) := by
  have hvalue : kioskValue .ks s (quote :: (wake ++ quote :: r)) =
      some ({ s with ks := some wake }, r) := by
    have hstring : jstring Field.ks.cap (wake ++ quote :: r) = some (wake, r) :=
      jstring_plain r (plain_names _ (by simp)) (by decide)
    have hnew : s.has .ks = false := by
      unfold Seen.has
      rw [hs]
      rfl
    rw [kioskValue_string hnew, kioskString, hstring]
    rfl
  rw [kioskMember_eq s (plain_names _ (by simp)) (by decide) (jws_cons (by decide) _)]
  exact hvalue

/-- A number is no string. -/
theorem head_numeral (n : ℕ) (l : Bytes) :
    (numeral 10 n ++ l).head? ≠ some quote ∧ jws (numeral 10 n ++ l) = numeral 10 n ++ l := by
  obtain ⟨c, ds, hc⟩ := exists_cons_of_ne_nil (numeral_ne_nil 10 n)
  have hdigit : value c < 10 :=
    value_numeral (by norm_num) (by norm_num) n c (by rw [hc]; exact mem_cons_self)
  rw [hc, cons_append]
  refine ⟨fun h => ?_, jws_cons (Double.lower_digit hdigit).1 _⟩
  rw [some.inj h] at hdigit
  exact absurd hdigit (by decide)

theorem member_v (hs : s.v = false) :
    kioskMember s (ascii ['v'] ++ quote :: colon :: (numeral 10 1 ++ comma :: r)) =
      some ({ s with v := true }, comma :: r) := by
  obtain ⟨hhead, hjws⟩ := head_numeral 1 (comma :: r)
  have hnumber : kioskNumber .v s (numeral 10 1 ++ comma :: r) =
      some ({ s with v := true }, comma :: r) := by
    have hone : Double.ofRat (1 : ℕ) = .fin 1 := by
      have h := ofRat_natCast (n := 1) (by norm_num)
      rwa [Nat.cast_one] at h ⊢
    have hsmall : tooLarge (.fin 1) = false := decide_eq_false (by norm_num)
    unfold kioskNumber
    rw [Double.strtod_numeral 1 (stops_comma r), hone]
    dsimp only
    rw [whole_digits, hsmall, if_neg (by simp)]
  have hvalue : kioskValue .v s (numeral 10 1 ++ comma :: r) =
      some ({ s with v := true }, comma :: r) := by
    have hnew : s.has .v = false := hs
    unfold kioskValue
    rw [hnew, if_neg Bool.false_ne_true, if_neg hhead]
    exact hnumber
  rw [kioskMember_eq s (plain_names _ (by simp)) (by decide) hjws]
  exact hvalue

theorem member_id {kid : Bytes} (hs : s.id = none)
    (hkid : ∀ c ∈ kid, 0x20 ≤ c ∧ c ≠ quote ∧ c ≠ backslash) (hlen : kid.length < 65) :
    kioskMember s (ascii ['i', 'd'] ++ quote :: colon :: quote :: (kid ++ quote :: r)) =
      some ({ s with id := some kid }, r) := by
  have hvalue : kioskValue .id s (quote :: (kid ++ quote :: r)) =
      some ({ s with id := some kid }, r) := by
    have hstring : jstring Field.id.cap (kid ++ quote :: r) = some (kid, r) :=
      jstring_plain r hkid hlen
    have hnew : s.has .id = false := by
      unfold Seen.has
      rw [hs]
      rfl
    rw [kioskValue_string hnew, kioskString, hstring]
    rfl
  rw [kioskMember_eq s (plain_names _ (by simp)) (by decide) (jws_cons (by decide) _)]
  exact hvalue

theorem member_n {n : ℕ} (hs : s.n = none) (hn : n < 2 ^ 32) :
    kioskMember s (ascii ['n'] ++ quote :: colon :: (numeral 10 n ++ comma :: r)) =
      some ({ s with n := some n }, comma :: r) := by
  obtain ⟨hhead, hjws⟩ := head_numeral n (comma :: r)
  have hnonneg : (0 : ℚ) ≤ n := by positivity
  have hnumber : kioskNumber .n s (numeral 10 n ++ comma :: r) =
      some ({ s with n := some n }, comma :: r) := by
    have hsmall : tooLarge (.fin n) = false := by
      have hcast : (n : ℚ) ≤ (2 ^ 32 : ℕ) := by exact_mod_cast hn.le
      refine decide_eq_false (not_lt.mpr ?_)
      rw [abs_of_nonneg hnonneg]
      exact hcast.trans (by norm_num)
    have hwhole : wholePart (.fin n) = n := by
      unfold wholePart
      dsimp only
      rw [if_neg (not_lt.mpr hnonneg), Int.floor_natCast]
    unfold kioskNumber
    rw [Double.strtod_numeral n (stops_comma r), ofRat_natCast (lt_trans hn (by norm_num))]
    dsimp only
    rw [whole_digits, hsmall, hwhole, if_neg (by simp)]
  have hvalue : kioskValue .n s (numeral 10 n ++ comma :: r) =
      some ({ s with n := some n }, comma :: r) := by
    have hnew : s.has .n = false := by
      unfold Seen.has
      rw [hs]
      rfl
    unfold kioskValue
    rw [hnew, if_neg Bool.false_ne_true, if_neg hhead]
    exact hnumber
  rw [kioskMember_eq s (plain_names _ (by simp)) (by decide) hjws]
  exact hvalue

theorem member_p {ph : Bytes} (hs : s.p = none) (hlen : ph.length < 128) :
    kioskMember s (ascii ['p'] ++ quote :: colon :: quote :: (ph.flatMap escChar ++ quote :: r)) =
      some ({ s with p := some ph }, r) := by
  have hvalue : kioskValue .p s (quote :: (ph.flatMap escChar ++ quote :: r)) =
      some ({ s with p := some ph }, r) := by
    have hstring : jstring Field.p.cap (ph.flatMap escChar ++ quote :: r) = some (ph, r) :=
      jstring_esc r hlen
    have hnew : s.has .p = false := by
      unfold Seen.has
      rw [hs]
      rfl
    rw [kioskValue_string hnew, kioskString, hstring]
    rfl
  rw [kioskMember_eq s (plain_names _ (by simp)) (by decide) (jws_cons (by decide) _)]
  exact hvalue

/-- The number of tenths that is read. -/
def readTenths (e : ℤ) : Double :=
  let x := Double.ofRat ((e.natAbs / 10 : ℕ) + (e.natAbs % 10 : ℕ) / 10)
  if e < 0 then Double.neg x else x

/-- A number of tenths as it is written. -/
def tenthsText (e : ℤ) : Bytes :=
  (if e < 0 then [minus] else []) ++
    (numeral 10 (e.natAbs / 10) ++ dot :: (numeral 10 (e.natAbs % 10) ++ [rbrace]))

theorem member_e (e : ℤ) (hs : s.e = none) :
    kioskMember s (ascii ['e'] ++ quote :: colon :: tenthsText e) =
      some ({ s with e := some (readTenths e) }, [rbrace]) := by
  have hdigit : e.natAbs % 10 < 10 := Nat.mod_lt _ (by norm_num)
  obtain ⟨hplus, hminus⟩ := Double.strtod_decimal (e.natAbs / 10) hdigit stops_rbrace
  have hread : Double.strtod (tenthsText e) = some (readTenths e, [rbrace]) ∧
      (tenthsText e).head? ≠ some quote ∧ jws (tenthsText e) = tenthsText e := by
    unfold tenthsText readTenths
    dsimp only
    by_cases hneg : e < 0
    · rw [if_pos hneg, if_pos hneg]
      exact ⟨hminus, fun h => absurd (some.inj h) (by decide), jws_cons (by decide) _⟩
    · rw [if_neg hneg, if_neg hneg]
      exact ⟨hplus, head_numeral _ _⟩
  have hvalue : kioskValue .e s (tenthsText e) =
      some ({ s with e := some (readTenths e) }, [rbrace]) := by
    have hnew : s.has .e = false := by
      unfold Seen.has
      rw [hs]
      rfl
    unfold kioskValue
    rw [hnew, if_neg Bool.false_ne_true, if_neg hread.2.1]
    unfold kioskNumber
    rw [hread.1]
  rw [kioskMember_eq s (plain_names _ (by simp)) (by decide) hread.2.2]
  exact hvalue

end Members

/-- The text of a claim, member by member. -/
def claimBody (kid : Bytes) (n : ℕ) (ph : Bytes) (e : ℤ) : Bytes :=
  quote :: (ascii ['k', 's'] ++ quote :: colon :: quote :: (wake ++ quote :: comma ::
    quote :: (ascii ['v'] ++ quote :: colon :: (numeral 10 1 ++ comma ::
      quote :: (ascii ['i', 'd'] ++ quote :: colon :: quote :: (kid ++ quote :: comma ::
        quote :: (ascii ['n'] ++ quote :: colon :: (numeral 10 n ++ comma ::
          quote ::
          (ascii ['p'] ++ quote :: colon :: quote :: (ph.flatMap escChar ++ quote :: comma ::
            quote :: (ascii ['e'] ++ quote :: colon :: tenthsText e)))))))))))

/-- **The members of a claim are read one after the other.** -/
theorem kioskLoop_claimBody {kid ph : Bytes} {n : ℕ} (e : ℤ)
    (hkid : ∀ c ∈ kid, 0x20 ≤ c ∧ c ≠ quote ∧ c ≠ backslash) (hlen : kid.length < 65)
    (hn : n < 2 ^ 32) (hph : ph.length < 128) (k : ℕ) :
    kioskLoop (k + 6) {} (claimBody kid n ph e) =
      some { ks := some wake, v := true, id := some kid, n := some n, p := some ph,
             e := some (readTenths e) } := by
  have hjws : ∀ l, jws (quote :: l) = quote :: l := jws_cons (by decide)
  unfold claimBody
  rw [kioskLoop_comma (member_ks rfl) (hjws _), kioskLoop_comma (member_v rfl) (hjws _),
    kioskLoop_comma (member_id rfl hkid hlen) (hjws _), kioskLoop_comma (member_n rfl hn) (hjws _),
    kioskLoop_comma (member_p rfl hph) (hjws _), kioskLoop_end (member_e e rfl)]

/-! ### The loudness -/

/-- The written number is a tenth of the integer. -/
theorem tenths_split (k : ℕ) : ((k / 10 : ℕ) : ℚ) + (k % 10 : ℕ) / 10 = (k : ℚ) / 10 := by
  have hsplit : ((10 * (k / 10) + k % 10 : ℕ) : ℚ) = (k : ℚ) :=
    congrArg Nat.cast (Nat.div_add_mod k 10)
  push_cast at hsplit
  linarith

/-- **A loudness in range** is read as a number that rounds to what was meant. -/
theorem readTenths_of_le {e : ℤ} (he : e.natAbs ≤ 10 ^ 7) :
    ∃ x, readTenths e = .fin x ∧ |x| ≤ 10 ^ 6 ∧ Double.lround (Double.round (x * 10)) = e := by
  have hk : (e.natAbs : ℚ) ≤ 10 ^ 7 := by exact_mod_cast he
  have hnonneg : (0 : ℚ) ≤ (e.natAbs : ℚ) / 10 := by positivity
  have hnear := Double.abs_round_sub_le ((e.natAbs : ℚ) / 10)
  have hread : Double.ofRat ((e.natAbs : ℚ) / 10) = .fin (Double.round ((e.natAbs : ℚ) / 10)) := by
    refine Double.ofRat_fin ?_
    rw [abs_of_nonneg hnonneg]
    linarith
  have hbound : |Double.round ((e.natAbs : ℚ) / 10)| ≤ 10 ^ 6 := by
    rcases he.lt_or_eq with hlt | heq
    · -- below the limit there is a tenth left, more than the rounding can take
      have hstrict : (e.natAbs : ℚ) ≤ 10 ^ 7 - 1 := by
        have h : e.natAbs + 1 ≤ 10 ^ 7 := hlt
        have hcast : ((e.natAbs + 1 : ℕ) : ℚ) ≤ 10 ^ 7 := by exact_mod_cast h
        push_cast at hcast
        linarith
      have htiny := Double.tiny_le
      have hpart : |(e.natAbs : ℚ) / 10| / 2 ^ 53 ≤ 1 / 1024 := by
        rw [abs_of_nonneg hnonneg, div_le_div_iff₀ (by norm_num) (by norm_num)]
        linarith
      have hsum := abs_add_le (Double.round ((e.natAbs : ℚ) / 10) - (e.natAbs : ℚ) / 10)
        ((e.natAbs : ℚ) / 10)
      rw [sub_add_cancel, abs_of_nonneg hnonneg] at hsum
      linarith
    · have hten : ((e.natAbs : ℚ) / 10) = ((10 ^ 6 : ℤ) : ℚ) := by
        rw [heq]
        norm_num
      rw [hten, Double.round_intCast (by norm_num)]
      norm_num
  have hsplit := tenths_split e.natAbs
  unfold readTenths
  dsimp only
  rw [hsplit, hread]
  -- the sign is put on last, rounding is the same on both sides
  by_cases hneg : e < 0
  · rw [if_pos hneg]
    refine ⟨_, rfl, by rwa [abs_neg], ?_⟩
    refine Double.lround_tenth (q := -((e.natAbs : ℚ) / 10)) ?_ ?_ ?_
    · have habs : (e.natAbs : ℚ) = -(e : ℚ) := by
        rw [Nat.cast_natAbs, abs_of_neg hneg, Int.cast_neg]
      rw [habs]
      ring
    · rw [abs_neg, abs_of_nonneg hnonneg]
      linarith
    · rw [abs_neg, neg_sub_neg, abs_sub_comm]
      exact hnear
  · rw [if_neg hneg]
    refine ⟨_, rfl, hbound, Double.lround_tenth ?_ ?_ hnear⟩
    · rw [Nat.cast_natAbs, abs_of_nonneg (not_lt.mp hneg)]
      ring
    · rw [abs_of_nonneg hnonneg]
      linarith

/-- **A loudness out of range** is none. -/
theorem readTenths_of_lt {e : ℤ} (he : 10 ^ 7 < e.natAbs) {x : ℚ} (hx : readTenths e = .fin x) :
    10 ^ 6 < |x| := by
  have hk : (10 ^ 7 + 1 : ℚ) ≤ (e.natAbs : ℚ) := by exact_mod_cast he
  have hnonneg : (0 : ℚ) ≤ (e.natAbs : ℚ) / 10 := by positivity
  have hnear := Double.abs_round_sub_le ((e.natAbs : ℚ) / 10)
  have htiny := Double.tiny_le
  rw [abs_of_nonneg hnonneg] at hnear
  have hround : 10 ^ 6 < Double.round ((e.natAbs : ℚ) / 10) := by
    have hlow := neg_le_of_abs_le hnear
    have hpart : (e.natAbs : ℚ) / 10 / 2 ^ 53 ≤ (e.natAbs : ℚ) / 10 / 10 ^ 8 :=
      div_le_div_of_nonneg_left hnonneg (by norm_num) (by norm_num)
    linarith
  have hfin : Double.ofRat ((e.natAbs : ℚ) / 10) = .fin x ∨
      Double.ofRat ((e.natAbs : ℚ) / 10) = .fin (-x) := by
    unfold readTenths at hx
    dsimp only at hx
    rw [tenths_split] at hx
    split at hx
    · cases hof : Double.ofRat ((e.natAbs : ℚ) / 10) with
      | fin y =>
        rw [hof] at hx
        injection hx with hx
        exact .inr (by rw [← hx, neg_neg])
      | inf b =>
        rw [hof] at hx
        cases hx
      | nan =>
        rw [hof] at hx
        cases hx
    · exact .inl hx
  have hvalue : ∀ y, Double.ofRat ((e.natAbs : ℚ) / 10) = .fin y → 10 ^ 6 < |y| := by
    intro y hy
    unfold Double.ofRat at hy
    split at hy
    · cases hy
    · injection hy with hy
      rw [← hy]
      exact hround.trans_le (le_abs_self _)
  rcases hfin with h | h
  · exact hvalue x h
  · rw [← abs_neg]
    exact hvalue (-x) h

/-! ### A claim -/

/-- The text of a claim, member by member. -/
theorem kioskText_eq (s : St) {ph : Bytes} (hph : ph.length ≤ 63) (rand : UInt32) (e : ℤ) :
    s.kioskText ph rand e = lbrace :: claimBody s.kid (rand &&& 0x3fffffff).toNat ph e := by
  have hesc : ph.foldl St.escStep [] = ph.flatMap escChar := by
    rw [foldl_escStep ph [] (by rw [length_nil]; omega), nil_append]
  have hone : numeral 10 1 = [0x31] := by decide
  unfold St.kioskText claimBody tenthsText
  rw [hesc, hone]
  simp only [append_assoc]
  rfl

/-- **What is read of a claim**: all that was put in, unless the loudness is out of range. -/
theorem kioskParse_kioskText (s : St) (hkid : ∀ c ∈ s.kid, value c < 16)
    (hlen : s.kid.length = 16) {ph : Bytes} (hnul : nul ∉ ph) (hph : ph.length ≤ 63)
    (rand : UInt32) (e : ℤ) :
    kioskParse (s.kioskText ph rand e) =
      if e.natAbs ≤ 10 ^ 7 then
        some { id := s.kid, n := (rand &&& 0x3fffffff).toNat, p := St.kioskPhrase ph, e := e }
      else none := by
  obtain ⟨-, hplain, -⟩ := plain_facts
  have hcstr : ∀ l : Bytes, nul ∉ l → cstr l = l := fun l hl =>
    takeWhile_eq_self_iff.mpr fun c hc => decide_eq_true fun h => hl (h ▸ hc)
  have hkidNul : nul ∉ s.kid := fun h => (hplain (hkid _ h)).2.2.2 rfl
  have hloop :=
    kioskLoop_claimBody e (fun c hc =>
      ⟨(hplain (hkid c hc)).1, (hplain (hkid c hc)).2.1, (hplain (hkid c hc)).2.2.1⟩) (by omega)
        (rand &&& 0x3fffffff).toNat_lt (hph.trans_lt (by norm_num))
    ((claimBody s.kid (rand &&& 0x3fffffff).toNat ph e).length - 5)
  have hfuel : (claimBody s.kid (rand &&& 0x3fffffff).toNat ph e).length - 5 + 6 =
      (claimBody s.kid (rand &&& 0x3fffffff).toNat ph e).length + 1 := by
    have hlong : 16 ≤ (claimBody s.kid (rand &&& 0x3fffffff).toNat ph e).length := by
      unfold claimBody
      simp only [length_cons, length_append]
      omega
    omega
  have hbody : jws (claimBody s.kid (rand &&& 0x3fffffff).toNat ph e) =
      claimBody s.kid (rand &&& 0x3fffffff).toNat ph e := jws_cons (by decide) _
  have hbrace : literal [lbrace] (lbrace :: claimBody s.kid (rand &&& 0x3fffffff).toNat ph e) =
      some (claimBody s.kid (rand &&& 0x3fffffff).toNat ph e) := literal_append [lbrace] _
  have hid : cstr s.kid ≠ [] := by
    rw [hcstr _ hkidNul]
    intro h
    rw [h] at hlen
    cases hlen
  unfold kioskParse
  rw [kioskText_eq s hph, jws_cons (by decide), hbrace, bind_some, hbody, ← hfuel, hloop, bind_some]
  unfold Seen.claim
  simp only [bind_eq_bind, bind_some]
  by_cases he : e.natAbs ≤ 10 ^ 7
  · obtain ⟨x, hread, hrange, hround⟩ := readTenths_of_le he
    rw [hread, if_pos he]
    dsimp only
    rw [if_pos ⟨trivial, by decide, hid, hrange⟩, hcstr _ hkidNul, hcstr _ hnul, hround]
  · rw [if_neg he]
    split
    · next x hread =>
      rw [if_neg fun h => not_lt.mpr h.2.2.2 (readTenths_of_lt (not_le.mp he) hread)]
    · rfl

/-! ### Two Echos -/

section Says

variable (C : Crypto) (s : St)

/-- **An Echo says a keyword the kiosk way**: the step opens a round, which the history shows by the
time to decide. -/
def Says (t : St) (keyword : Bytes) (score : Int32) (rand : UInt32) : Prop :=
  s.mode = .kiosk ∧ ∃ prio now due, due ≠ 0 ∧ t = s.step C (.claim keyword score prio now rand) ∧
    t.out.getLast? = some (.claimed due)

theorem koffset_closeRound (now : ℤ) : (s.closeRound now).koffset = s.koffset := by
  have hwithdraw : ∀ (t : St) (g : Got), (t.withdraw now g).koffset = t.koffset := by
    intro t g
    unfold St.withdraw
    split
    · rfl
    · rfl
  have htake : ∀ (cutoff : ℤ) (r t : St) (w : Want),
      (r.takeRival cutoff t w).koffset = t.koffset := by
    intro cutoff r t w
    have hrival : (t.rival w.id).2.koffset = t.koffset := by
      unfold St.rival
      split
      · rfl
      · rfl
    exact hrival
  unfold St.closeRound
  split
  · have hfold : (s.round.got.foldl (fun (t : St) g => t.withdraw now g) s).koffset = s.koffset :=
      Runs.invariant_all (I := fun t => t.koffset = s.koffset)
        (fun t g h => (hwithdraw t g).trans h) rfl _
    generalize s.round.got.foldl (fun (t : St) g => t.withdraw now g) s = u at hfold
    exact Runs.invariant_all (f := u.takeRival ((s.round.at_ + now) / 2))
      (I := fun t => t.koffset = s.koffset)
      (fun t w h => (htake _ u t w).trans h) hfold _
  · rfl

/-- What the round is, and what is sent. -/
theorem Says.spec {C : Crypto} {s t : St} {keyword : Bytes} {score : Int32} {rand : UInt32}
    (h : Says C s t keyword score rand) :
    t.kid = s.kid ∧ t.kroundP = St.kioskPhrase keyword ∧
      t.kroundE = St.tenths score.toInt + s.koffset * 10 ∧
      t.kpkt.take t.kpktN = t.kioskText t.kroundP rand t.kroundE := by
  obtain ⟨hmode, prio, now, due, hdue, hstep, hout⟩ := h
  have hkid : t.kid = s.kid := by
    rw [hstep]
    exact (s.step_ledger C (.claim keyword score prio now rand)).2.2.2
  have hkiosk : ((s.closeRound now.1).beginRound (C.blake2b8 ((keyword.take 64).map St.toLower))
      now.1).round.kiosk = true := by
    have hframe : Frame C (∅ : Set Kind) s (s.closeRound now.1) := s.frame_closeRound C now.1
    exact decide_eq_true ((Prod.mk.inj hframe.settings).2.trans hmode)
  have hoffset : ((s.closeRound now.1).beginRound (C.blake2b8 ((keyword.take 64).map St.toLower))
      now.1).koffset = s.koffset := koffset_closeRound s now.1
  have hstep' : t = s.arbClaim C keyword score prio now.1 rand := hstep
  unfold St.arbClaim at hstep'
  dsimp only at hstep'
  rw [if_pos hkiosk] at hstep'
  generalize (s.closeRound now.1).beginRound
    (C.blake2b8 ((keyword.take 64).map St.toLower)) now.1 = u
    at hstep' hoffset
  -- it answered, so it said its claim
  have hresult : (u.kioskClaim keyword score now.1 rand).1 = due := by
    have hlast : t.out.getLast? = some (.claimed (u.kioskClaim keyword score now.1 rand).1) := by
      rw [hstep']
      exact getLast?_concat
    exact Out.claimed.inj (some.inj (hlast.symm.trans hout))
  have hlogged : (t.kid, t.kroundP, t.kroundE, t.kpkt, t.kpktN) =
      ((u.kioskClaim keyword score now.1 rand).2.kid,
        (u.kioskClaim keyword score now.1 rand).2.kroundP,
        (u.kioskClaim keyword score now.1 rand).2.kroundE,
        (u.kioskClaim keyword score now.1 rand).2.kpkt,
        (u.kioskClaim keyword score now.1 rand).2.kpktN) := by
    rw [hstep']
    rfl
  unfold St.kioskClaim at hresult hlogged
  dsimp only at hresult hlogged
  split at hresult
  · exact absurd hresult.symm hdue
  · next hcan =>
    rw [if_neg hcan] at hlogged
    split at hresult
    · exact absurd hresult.symm hdue
    · next hfits =>
      rw [if_neg hfits] at hlogged
      -- sending leaves what was written alone
      have hsend : ∀ v : St, (v.kioskSend.kid, v.kioskSend.kroundP, v.kioskSend.kroundE,
          v.kioskSend.kpkt, v.kioskSend.kpktN) =
          (v.kid, v.kroundP, v.kroundE, v.kpkt, v.kpktN) := by
        intro v
        unfold St.kioskSend
        split
        · rfl
        · rfl
      have hall := hlogged.trans (hsend _)
      simp only [Prod.mk.injEq] at hall
      obtain ⟨hid, hp, he, hpkt, hn⟩ := hall
      refine ⟨hkid, hp, he.trans (by rw [hoffset]), ?_⟩
      rw [hpkt, hn, take_length, hp, he]
      unfold St.kioskText
      rw [hid]

/-- The id of an Echo is written in digits. -/
theorem kid_run (b : Boot) (l : List Ev) :
    ((start C b).run C l).kid.length = 16 ∧ ∀ c ∈ ((start C b).run C l).kid, value c < 16 := by
  have hstart : ∃ id : Blob 8, (start C b).kid = hex id.1 := by
    unfold start
    dsimp only
    split
    · exact ⟨_, rfl⟩
    · exact ⟨_, rfl⟩
  obtain ⟨id, hid⟩ : ∃ id : Blob 8, ((start C b).run C l).kid = hex id.1 :=
    Runs.invariant_all (I := fun s : St => ∃ id : Blob 8, s.kid = hex id.1)
      (fun s ev ⟨id, h⟩ => ⟨id, (s.step_ledger C ev).2.2.2.trans h⟩) hstart l
  rw [hid]
  refine ⟨by rw [length_hex, id.2], fun c hc => ?_⟩
  obtain ⟨d, -, hd⟩ := mem_flatMap.mp hc
  have hdlt := d.toNat_lt
  rcases mem_cons.mp hd with rfl | hd
  · rw [value_digit _ (by omega)]
    omega
  · rw [mem_singleton.mp hd, value_digit _ (by omega)]
    omega

/-- **The claim is taken as it was meant**: its id, number and loudness are what was put in, and its
phrase is the one of the other Echo's round. -/
def Taken (t u : St) (rand : UInt32) : Prop :=
  ∃ k, kioskParse (t.kpkt.take t.kpktN) = some k ∧ k.id = t.kid ∧
    k.n = (rand &&& 0x3fffffff).toNat ∧
    k.e = t.kroundE ∧ k.p = u.kroundP

/-- **When a claim names the same phrase at both ends**: its phrase was not cut off right behind a
space, and its loudness is in the range that is read. -/
theorem kiosk_taken (b b' : Boot) (l l' : List Ev) (keyword : CString) (score score' : Int32)
    (rand rand' : UInt32) {t u : St} (ht : Says C ((start C b).run C l) t keyword.1 score rand)
    (hu : Says C ((start C b').run C l') u keyword.1 score' rand') :
    Taken t u rand ↔ (phrase keyword.1)[62]? ≠ some space ∧
      (St.tenths score.toInt + ((start C b).run C l).koffset * 10).natAbs ≤ 10 ^ 7 := by
  obtain ⟨hlen, hdigits⟩ := kid_run C b l
  obtain ⟨hkid, hp, he, hpkt⟩ := ht.spec
  have hround : u.kroundP = St.kioskPhrase keyword.1 := hu.spec.2.1
  have hphrase : (St.kioskPhrase keyword.1).length ≤ 63 := by
    rw [kioskPhrase_eq, length_take]
    exact min_le_left _ _
  have hparse :=
    kioskParse_kioskText t (hkid ▸ hdigits) (hkid ▸ hlen) (nul_notMem_kioskPhrase keyword.2)
    hphrase rand t.kroundE
  unfold Taken
  rw [hpkt, hp, hround, hparse, ← kioskPhrase_kioskPhrase, ← he]
  constructor
  · rintro ⟨k, hk, -, -, -, hkp⟩
    split at hk
    · next hrange =>
      rw [← some.inj hk] at hkp
      exact ⟨hkp, hrange⟩
    · cases hk
  · rintro ⟨hsame, hrange⟩
    rw [if_pos hrange]
    exact ⟨_, rfl, rfl, rfl, rfl, hsame⟩

end Says

/-! ### A phrase that is cut off behind a space -/

/-- An Echo whose kiosk port is open. -/
def kioskRun : List Ev := [.mode .kiosk, .tick { Turn.plain ⟨6000, pos_6000⟩ with bound := true }]

/-- An Echo after it said the keyword. -/
def saidBy (c : UInt8) (keyword : Bytes) : St :=
  ((start .clear (.plain c)).run .clear kioskRun).step .clear
    (.claim keyword 100 0 ⟨20000, by decide⟩ 5)

/-- The time of the claim that the history ends with. -/
def lastClaim (s : St) : Option ℤ :=
  match s.out.getLast? with
  | some (.claimed due) => some due
  | _ => none

theorem says_saidBy (c : UInt8) (keyword : Bytes)
    (h : ((start .clear (.plain c)).run .clear kioskRun).mode = .kiosk ∧
      lastClaim (saidBy c keyword) = some 20400) :
    Says .clear ((start .clear (.plain c)).run .clear kioskRun)
      (saidBy c keyword) keyword 100 5 := by
  refine ⟨h.1, 0, ⟨20000, by decide⟩, 20400, by decide, rfl, ?_⟩
  obtain ⟨-, hlast⟩ := h
  unfold lastClaim at hlast
  split at hlast
  · next due hout =>
    rw [hout, some.inj hlast]
  · cases hlast

/-- A word of `62` letters, and another. -/
def longWord : Bytes := List.replicate 62 0x61 ++ [space, 0x62]

/-- Two Echos say a keyword; the claim of `a` is one to be taken, and of the long word less is read
than the round has. -/
theorem saidBy_facts : (∀ w ∈ [[0x61], longWord], ∀ c ∈ [(1 : UInt8), 2],
      ((start .clear (.plain c)).run .clear kioskRun).mode = .kiosk ∧
      lastClaim (saidBy c w) = some 20400) ∧
    ((phrase [0x61])[62]? ≠ some space ∧ (St.tenths (100 : Int32).toInt +
      ((start .clear (.plain 1)).run .clear kioskRun).koffset * 10).natAbs ≤ 10 ^ 7) ∧
    (kioskParse ((saidBy 1 longWord).kpkt.take (saidBy 1 longWord).kpktN)).map (·.p) ≠
      some (saidBy 2 longWord).kroundP := by
  decide +kernel

/-- The keyword `a`, said by two Echos. -/
theorem kiosk_taken_a : Taken (saidBy 1 [0x61]) (saidBy 2 [0x61]) 5 :=
  (kiosk_taken .clear (.plain 1) (.plain 2) kioskRun kioskRun ⟨[0x61], by decide⟩ 100 100 5 5
    (says_saidBy 1 [0x61] (saidBy_facts.1 _ (by simp) 1 (by simp)))
    (says_saidBy 2 [0x61] (saidBy_facts.1 _ (by simp) 2 (by simp)))).mpr saidBy_facts.2.1

/-- **A phrase that is cut off behind a space** is not the one of the other Echo's round. -/
theorem kiosk_cut : Says .clear ((start .clear (.plain 1)).run .clear kioskRun)
    (saidBy 1 longWord) longWord 100 5 ∧
    Says .clear ((start .clear (.plain 2)).run .clear kioskRun) (saidBy 2 longWord) longWord 100 5 ∧
    ¬ Taken (saidBy 1 longWord) (saidBy 2 longWord) 5 := by
  refine ⟨says_saidBy 1 longWord (saidBy_facts.1 _ (by simp) 1 (by simp)),
    says_saidBy 2 longWord (saidBy_facts.1 _ (by simp) 2 (by simp)), ?_⟩
  rintro ⟨k, hk, -, -, -, hkp⟩
  exact saidBy_facts.2.2 (by rw [hk, map_some, hkp])

end Hassmic.Arb
