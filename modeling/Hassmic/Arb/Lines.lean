import Hassmic.Arb.StateFile

/-!
# The samples and rounds of the state file

What is read back of the lines that hold the samples of the window and the rounds kept of the
rivals: each sample, and of a rival's rounds those before the first one whose score of ours is out
of the range that the reader takes.

## Main definitions

* `fits` — a round the reader takes.

## Main results

* `loadLine_delayLine` — a sample is read back.
* `loadLine_obsLine` — the rounds of a rival are read back while they fit.
-/

namespace Hassmic.Arb

open Byte Text List Option

namespace St

variable (C : Crypto) (s : St)

/-! ### Identities -/

theorem unhex_hex (l : Bytes) : unhex (hex l) = l := by
  induction l with
  | nil => rfl
  | cons c l ih =>
    have hc := c.toNat_lt
    have hhex : hex (c :: l) = digit (c.toNat / 16) :: digit (c.toNat % 16) :: hex l := rfl
    rw [hhex, unhex, ih, value_digit _ (by omega), value_digit _ (by omega)]
    have hsplit : 16 * (c.toNat / 16) + c.toNat % 16 = c.toNat := Nat.div_add_mod _ 16
    rw [hsplit]
    exact congrArg (· :: l) (UInt8.ofNat_toNat)

theorem unhex8_hex (id : Blob 8) : unhex8 (hex id.1) = some id := by
  have hlen : (unhex (hex id.1)).length = 8 ∧ (hex id.1).length = 16 := by
    rw [unhex_hex, length_hex, id.2]
    exact ⟨rfl, rfl⟩
  unfold unhex8
  rw [dif_pos hlen]
  exact congrArg some (Subtype.ext (unhex_hex id.1))

/-- The digits an identity is written with. -/
theorem lower_hex (l : Bytes) : ∀ c ∈ hex l, (value c < 16 && !(0x41 ≤ c && c ≤ 0x46)) = true := by
  have hdigit : ∀ d < 16, (value (digit d) < 16 && !(0x41 ≤ digit d && digit d ≤ 0x46)) = true := by
    decide
  intro c hc
  obtain ⟨b, -, hb⟩ := mem_flatMap.mp hc
  have hlt := b.toNat_lt
  rcases mem_cons.mp hb with rfl | hb
  · exact hdigit _ (by omega)
  · rw [mem_singleton.mp hb]
    exact hdigit _ (by omega)

theorem scanHex_hex (id : Blob 8) {c : UInt8} (hc : value c = 16) (l : Bytes) :
    scanHex (hex id.1 ++ c :: l) = some (hex id.1, c :: l) := by
  have hlen : (hex id.1).length = 16 := by rw [length_hex, id.2]
  have htake : (hex id.1 ++ c :: l).takeWhile (fun c => value c < 16 && !(0x41 ≤ c && c ≤ 0x46)) =
      hex id.1 := by
    rw [takeWhile_append_of_pos (lower_hex id.1), takeWhile_cons, if_neg (by simp [hc]),
      append_nil]
  unfold scanHex
  rw [htake, take_of_length_le hlen.le]
  dsimp only
  rw [if_neg (ne_nil_of_length_eq_add_one hlen), drop_left]

/-- An identity behind a word and a space. -/
theorem dropWhile_hex (id : Blob 8) (l : Bytes) :
    (space :: (hex id.1 ++ l)).dropWhile isSpace = hex id.1 ++ l := by
  obtain ⟨c, h, hc⟩ : ∃ c h, hex id.1 = c :: h := by
    have hlen : (hex id.1).length = 16 := by rw [length_hex, id.2]
    exact exists_cons_of_ne_nil (ne_nil_of_length_eq_add_one hlen)
  have hlower := lower_hex id.1 c (by rw [hc]; exact mem_cons_self)
  have hvalue : value c < 16 := by
    simp only [Bool.and_eq_true, decide_eq_true_eq] at hlower
    exact hlower.1
  rw [dropWhile_cons, if_pos (by decide), hc, cons_append, dropWhile_cons,
    if_neg (by rw [(value_lt_16 hvalue).1]; exact Bool.false_ne_true)]

/-! ### Samples -/

theorem scanDelay_delayLine (d : Delay) (h : 0 ≤ d.ms.toInt ∧ d.ms.toInt ≤ measureMs) :
    scanDelay (delayLine d) = some d := by
  have hline : delayLine d =
      wDelay ++ (space :: (hex d.id.1 ++ (space :: (decimal d.ms.toInt ++ [lf])))) := by
    unfold delayLine
    simp only [append_assoc, cons_append, nil_append]
  have hmeasure : measureMs = 1500 := rfl
  have hms : signed (space :: (decimal d.ms.toInt ++ [lf])) = some (d.ms.toInt, [lf]) := by
    rw [signed_space]
    exact signed_decimal (by omega) (by omega) (ends_of_head (by omega) (by decide) [])
  unfold scanDelay
  rw [hline, literal_append]
  simp only [bind_eq_bind, bind_some, dropWhile_hex, scanHex_hex d.id (c := space) (by decide),
    unhex8_hex, hms]
  rw [if_pos h, Int32.ofInt_toInt]

/-- What a line that starts with `d` or `o` is not. -/
theorem scan_other {x : Bytes} {c : UInt8} {l : Bytes} (hc : x = c :: l)
    (hhead : c = 0x64 ∨ c = 0x6f) :
    ((scanInt wArbitrate x).orElse fun _ => scanInt wJoin x) = none ∧ scanCtr x = none ∧
      scanNet x = none := by
  have hword : ∀ (a : UInt8) (w : Bytes), a ≠ 0x64 → a ≠ 0x6f → literal (a :: w) x = none := by
    intro a w hd ho
    rw [hc]
    refine literal_ne ?_ w l
    rcases hhead with rfl | rfl
    · exact hd
    · exact ho
  have ha : literal wArbitrate x = none := hword 0x61 _ (by decide) (by decide)
  have hj : literal wJoin x = none := hword 0x6a _ (by decide) (by decide)
  have hr : literal wCtr x = none := hword 0x63 _ (by decide) (by decide)
  have hn : literal wNet x = none := hword 0x6e _ (by decide) (by decide)
  unfold scanInt scanCtr scanNet
  rw [ha, hj, hr, hn]
  exact ⟨rfl, rfl, rfl⟩

/-- **A sample is read back.** -/
theorem loadLine_delayLine (d : Delay) (h : 0 ≤ d.ms.toInt ∧ d.ms.toInt ≤ measureMs) :
    loadLine C s (delayLine d) =
      { s with
        delays := Function.update s.delays (Fin.ofNat nDelay s.ndelay) d
        ndelay := s.ndelay + 1 } := by
  obtain ⟨hint, hctr, hnet⟩ := scan_other (x := delayLine d) (c := 0x64) rfl (.inl rfl)
  unfold loadLine loadText
  rw [(isLine_delayLine d).takeWhile, hint, hctr, hnet, scanDelay_delayLine d h]

/-! ### Rounds -/

/-- A round the reader takes: our score is in its range. -/
def fits (o : Obs) : Bool := decide (-100000 ≤ o.own.toInt) && decide (o.own.toInt ≤ 100000)

/-- What follows a round: another one, or the end of the line. -/
def Follows (l : Bytes) : Prop := l.head? = some space ∨ l.head? = some lf

theorem follows_rounds (L : List Obs) : Follows (L.flatMap obsText ++ [lf]) := by
  cases L with
  | nil => exact .inr rfl
  | cons o L => exact .inl rfl

theorem ends_of_follows {l : Bytes} (h : Follows l) : Ends 10 l := by
  intro c hc
  rcases h with h | h
  · rw [h] at hc
    rw [← some.inj hc]
    decide
  · rw [h] at hc
    rw [← some.inj hc]
    decide

/-- What is written of a member's claim. -/
def claimText (o : Obs) : Bytes := if o.d = dNone then [minus] else decimal o.d.toInt

/-- A number is no sign with no digit behind it. -/
theorem head_decimal (v : ℤ) (l : Bytes) :
    ¬ ((decimal v ++ l).head? = some minus ∧
      ((decimal v ++ l).drop 1).head? ∈ [some space, some lf, none]) := by
  have hdigits := value_numeral (b := 10) (by omega) (by omega) v.natAbs
  obtain ⟨c, ds, hc⟩ := exists_cons_of_ne_nil (numeral_ne_nil 10 v.natAbs)
  have hvalue : value c < 10 := hdigits c (by rw [hc]; exact mem_cons_self)
  rintro ⟨hhead, hnext⟩
  unfold decimal at hhead hnext
  rw [hc] at hhead hnext
  by_cases hneg : v < 0
  · rw [if_pos hneg] at hnext
    have hnext : some c ∈ [some space, some lf, none] := hnext
    simp only [mem_cons, Option.some.injEq, reduceCtorEq, not_mem_nil, or_false] at hnext
    rcases hnext with rfl | rfl
    · exact absurd hvalue (by decide)
    · exact absurd hvalue (by decide)
  · rw [if_neg hneg] at hhead
    have hhead : some c = some minus := hhead
    rw [some.inj hhead] at hvalue
    exact absurd hvalue (by decide)

/-- **One round is read back**, if it is one the reader takes. -/
theorem scanRound_obsText (o : Obs) {l : Bytes} (hl : Follows l) :
    scanRound (obsText o ++ l) = if fits o then some (o, l) else none := by
  have htext : obsText o ++ l =
      space :: (decimal o.own.toInt ++ ([colon] ++ (claimText o ++ l))) := by
    unfold obsText claimText
    simp only [append_assoc, cons_append, nil_append]
  have hown : signed (obsText o ++ l) = some (o.own.toInt, [colon] ++ (claimText o ++ l)) := by
    have hlo := o.own.le_toInt
    have hhi := o.own.toInt_lt
    rw [htext, signed_space]
    exact signed_decimal (by omega) (by omega) (ends_of_head (by omega) (by decide) _)
  unfold scanRound
  rw [hown]
  simp only [bind_eq_bind, bind_some, literal_append]
  by_cases hfits : fits o = true
  · have hrange : ¬ (o.own.toInt < -100000 ∨ 100000 < o.own.toInt) := by
      unfold fits at hfits
      simp only [Bool.and_eq_true, decide_eq_true_eq] at hfits
      omega
    rw [if_pos hfits, if_neg hrange]
    unfold claimText
    by_cases hd : o.d = dNone
    · have hrest : ([minus] ++ l).head? = some minus ∧ (([minus] ++ l).drop 1).head? ∈
          [some space, some lf, none] := by
        refine ⟨rfl, ?_⟩
        have hdrop : ([minus] ++ l).drop 1 = l := rfl
        rw [hdrop]
        rcases hl with h | h
        · rw [h]
          exact mem_cons_self
        · rw [h]
          exact mem_cons_of_mem _ mem_cons_self
      rw [if_pos hd, if_pos hrest, Int32.ofInt_toInt, ← hd]
      rfl
    · have hlo := o.d.le_toInt
      have hhi := o.d.toInt_lt
      have hnone : dNone.toInt = -2147483648 := by decide
      have hprio : dPrio.toInt = 2147483647 := by decide
      have hne : o.d.toInt ≠ dNone.toInt := fun h => hd (Int32.toInt_inj.mp h)
      rw [if_neg hd, if_neg (head_decimal o.d.toInt l),
        signed_decimal (by omega) (by omega) (ends_of_follows hl)]
      simp only [bind_some]
      rw [if_neg (by omega), Int32.ofInt_toInt, Int32.ofInt_toInt]
  · have hrange : o.own.toInt < -100000 ∨ 100000 < o.own.toInt := by
      unfold fits at hfits
      simp only [Bool.and_eq_true, decide_eq_true_eq] at hfits
      omega
    rw [if_neg hfits, if_pos hrange]

theorem length_le_rounds (L : List Obs) : L.length ≤ (L.flatMap obsText).length := by
  induction L with
  | nil => exact le_rfl
  | cons o L ih =>
    have htext : 1 ≤ (obsText o).length := by
      unfold obsText
      rw [length_append, length_append, length_append, length_singleton]
      omega
    rw [flatMap_cons, length_append, length_cons]
    omega

theorem scanRound_end : scanRound [lf] = none := by decide

/-- **The rounds of a rival are read back while they fit.** -/
theorem loadRounds_obsText (i : Fin nPeer) (L : List Obs) (k : ℕ) (hk : L.length < k) :
    loadRounds i k s (L.flatMap obsText ++ [lf]) =
      (L.takeWhile fits).foldl (fun (t : St) o => t.observe i o.own o.d 1) s := by
  induction L generalizing s k with
  | nil =>
    obtain ⟨k, rfl⟩ : ∃ m, k = m + 1 := ⟨k - 1, by omega⟩
    rw [flatMap_nil, nil_append, loadRounds, scanRound_end]
    rfl
  | cons o L ih =>
    rw [length_cons] at hk
    obtain ⟨k, rfl⟩ : ∃ m, k = m + 1 := ⟨k - 1, by omega⟩
    rw [flatMap_cons, append_assoc, loadRounds, scanRound_obsText o (follows_rounds L)]
    by_cases ho : fits o = true
    · rw [if_pos ho, takeWhile_cons, if_pos ho, foldl_cons]
      exact ih _ k (by omega)
    · rw [if_neg ho, takeWhile_cons, if_neg ho]
      rfl

/-- The line of a rival is read as one. -/
theorem loadLine_rival (v : Rival) :
    loadLine C s (obsLine v) = s.loadObs v.id ((oldest v).flatMap obsText ++ [lf]) := by
  obtain ⟨hint, hctr, hnet⟩ := scan_other (x := obsLine v) (c := 0x6f) rfl (.inr rfl)
  have hline : obsLine v =
      wObs ++ (space :: (hex v.id.1 ++ ((oldest v).flatMap obsText ++ [lf]))) := by
    unfold obsLine
    simp only [append_assoc, cons_append, nil_append]
  have hdelay : scanDelay (obsLine v) = none := by
    have hword : literal wDelay (obsLine v) = none := literal_ne (by decide) _ _
    unfold scanDelay
    rw [hword]
    rfl
  have hhex : scanHex (hex v.id.1 ++ ((oldest v).flatMap obsText ++ [lf])) =
      some (hex v.id.1, (oldest v).flatMap obsText ++ [lf]) := by
    cases oldest v with
    | nil => exact scanHex_hex v.id (by decide) []
    | cons o L => exact scanHex_hex v.id (c := space) (by decide) _
  have hscan : scanObs (obsLine v) = some (v.id, (oldest v).flatMap obsText ++ [lf]) := by
    unfold scanObs
    rw [hline, literal_append]
    simp only [bind_eq_bind, bind_some, dropWhile_hex, hhex, unhex8_hex]
  unfold loadLine loadText
  rw [(isLine_obsLine v).takeWhile, hint, hctr, hnet, hdelay, hscan]

/-- **A rival is read back**, with the rounds before the first that does not fit. -/
theorem loadLine_obsLine (v : Rival) :
    loadLine C s (obsLine v) =
      let r := s.rival v.id
      let t := ((oldest v).takeWhile fits).foldl (fun (t : St) o => t.observe r.1 o.own o.d 1) r.2
      if (t.rivals r.1).n = 0 then { t with rivals := Function.update t.rivals r.1 {} } else t := by
  have hlength : (oldest v).length < ((oldest v).flatMap obsText ++ [lf]).length := by
    rw [length_append, length_singleton, Nat.lt_succ_iff]
    exact length_le_rounds (oldest v)
  rw [loadLine_rival]
  unfold loadObs
  dsimp only
  rw [loadRounds_obsText _ _ _ _ hlength]

end St

end Hassmic.Arb
