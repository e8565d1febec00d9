import Hassmic.Lib.Text
import Hassmic.Json.Shown

/-!
# Writing a string

`json_esc` writes a string of C as a JSON string, its quotes, backslashes and control characters
escaped.  What it writes is read as one token, of which the string is shown with a space for each
control character.

## Main definitions

* `escChar`, `escText` — a string as it is written.
* `jsonEsc` — `json_esc`.
* `Shows` — what is shown of a text in a buffer.

## Main results

* `jsonEsc_eq` — a string is written if it and the NUL fit.
* `jsonParse_escText` — **what was written is one token**.
* `json_strings` — **reading and writing strings**.
-/

namespace Hassmic.Json

open Byte List Option

/-! ### `json_esc` -/

section Buffer

variable (n : ℕ)

/-- The macro `PUT`. -/
def put (c : UInt8) (out : Bytes) : Option Bytes :=
  if n ≤ out.length + 1 then none else some (out ++ [c])

/-- One character of the string. -/
def escStep (c : UInt8) (out : Bytes) : Option Bytes :=
  if c = quote ∨ c = backslash then (put n backslash out).bind (put n c)
  else if c < 0x20 then
    if n ≤ out.length + 7 then none
    else some (out ++ ([backslash, 0x75] ++ Text.pad 4 (Text.numeral 16 c.toNat)))
  else put n c out

/-- The characters of the string, behind what was written. -/
def escLoop : Bytes → Bytes → Option Bytes
  | [], out => some out
  | c :: s, out => (escStep n c out).bind (escLoop s)

/-- `esc_fail`: what is left of a string that does not fit. -/
def escFail : Bytes := if 3 ≤ n then [quote, quote] else []

/-- **`json_esc`** with a buffer of `n` bytes: its result (none: `-1`), and what it writes before
the NUL. -/
def jsonEsc (s : Bytes) : Option ℕ × Bytes :=
  match ((put n quote []).bind (escLoop n s)).bind (put n quote) with
  | some out => (some out.length, out)
  | none => (none, escFail n)

end Buffer

/-- A character as it is written. -/
def escChar (c : UInt8) : Bytes :=
  if c = quote ∨ c = backslash then [backslash, c]
  else if c < 0x20 then [backslash, 0x75] ++ Text.pad 4 (Text.numeral 16 c.toNat)
  else [c]

/-- A string as it is written. -/
def escText (s : Bytes) : Bytes := quote :: (s.flatMap escChar ++ [quote])

/-- A control character has four digits, the first two of them zeros. -/
theorem pad_control : ∀ {c : UInt8}, c < 0x20 → Text.pad 4 (Text.numeral 16 c.toNat) =
    [0x30, 0x30, Text.digit (c.toNat / 16), Text.digit (c.toNat % 16)] := by
  decide +kernel

theorem escChar_control {c : UInt8} (hq : ¬ (c = quote ∨ c = backslash)) (hc : c < 0x20) :
    escChar c = [backslash, 0x75, 0x30, 0x30, Text.digit (c.toNat / 16),
      Text.digit (c.toNat % 16)] := by
  unfold escChar
  rw [if_neg hq, if_pos hc, pad_control hc]
  rfl

theorem length_escChar_le (c : UInt8) : (escChar c).length ≤ 6 := by
  by_cases hq : c = quote ∨ c = backslash
  · unfold escChar
    rw [if_pos hq]
    exact (by decide : 2 ≤ 6)
  · by_cases hc : c < 0x20
    · rw [escChar_control hq hc]
      exact le_rfl
    · unfold escChar
      rw [if_neg hq, if_neg hc]
      exact (by decide : 1 ≤ 6)

theorem length_escText_le (s : Bytes) : (escText s).length ≤ 6 * s.length + 2 := by
  have hchars : (s.flatMap escChar).length ≤ 6 * s.length := by
    induction s with
    | nil => exact le_rfl
    | cons c s ih =>
      have hc := length_escChar_le c
      rw [flatMap_cons, length_append, length_cons]
      omega
  unfold escText
  rw [length_cons, length_append, length_singleton]
  omega

/-- What a step writes, and when it can. -/
theorem escStep_spec (n : ℕ) (c : UInt8) (out : Bytes) :
    (∀ r, escStep n c out = some r → r = out ++ escChar c) ∧
      (out.length + (escChar c).length + 1 < n → escStep n c out = some (out ++ escChar c)) := by
  by_cases hq : c = quote ∨ c = backslash
  · have hchar : escChar c = [backslash, c] := if_pos hq
    have hstep : escStep n c out = (put n backslash out).bind (put n c) := if_pos hq
    have htwo : out ++ [backslash] ++ [c] = out ++ [backslash, c] := append_assoc _ _ _
    rw [hchar, hstep]
    unfold put
    refine ⟨fun r hr => ?_, fun hlen => ?_⟩
    · split at hr
      · cases hr
      · rw [bind_some] at hr
        split at hr
        · cases hr
        · rw [← some.inj hr, htwo]
    · have hlen2 : out.length + 3 < n := hlen
      rw [if_neg (by omega), bind_some,
        if_neg (by rw [length_append, length_singleton]; omega), htwo]
  · by_cases hc : c < 0x20
    · have hstep : escStep n c out = if n ≤ out.length + 7 then none
          else some (out ++ escChar c) := by
        unfold escStep escChar
        rw [if_neg hq, if_pos hc, if_neg hq, if_pos hc]
      rw [hstep]
      refine ⟨fun r hr => ?_, fun hlen => ?_⟩
      · split at hr
        · cases hr
        · exact (some.inj hr).symm
      · rw [escChar_control hq hc] at hlen
        have hlen6 : out.length + 7 < n := hlen
        rw [if_neg (by omega)]
    · have hchar : escChar c = [c] := by
        unfold escChar
        rw [if_neg hq, if_neg hc]
      have hstep : escStep n c out = put n c out := by
        unfold escStep
        rw [if_neg hq, if_neg hc]
      rw [hchar, hstep]
      unfold put
      refine ⟨fun r hr => ?_, fun hlen => ?_⟩
      · split at hr
        · cases hr
        · exact (some.inj hr).symm
      · have hlen1 : out.length + 2 < n := hlen
        rw [if_neg (by omega)]

theorem escLoop_spec (n : ℕ) (s : Bytes) : ∀ out : Bytes,
    (∀ r, escLoop n s out = some r → r = out ++ s.flatMap escChar) ∧
      (out.length + (s.flatMap escChar).length + 1 < n →
        escLoop n s out = some (out ++ s.flatMap escChar)) := by
  induction s with
  | nil =>
    intro out
    rw [flatMap_nil, append_nil]
    exact ⟨fun r hr => (some.inj hr).symm, fun _ => rfl⟩
  | cons c s ih =>
    intro out
    obtain ⟨hwrote, hcan⟩ := escStep_spec n c out
    rw [flatMap_cons, escLoop]
    refine ⟨fun r hr => ?_, fun hlen => ?_⟩
    · cases hstep : escStep n c out with
      | none =>
        rw [hstep] at hr
        cases hr
      | some out' =>
        rw [hstep, bind_some] at hr
        rw [(ih out').1 r hr, hwrote out' hstep, append_assoc]
    · rw [length_append] at hlen
      rw [hcan (by omega), bind_some, (ih _).2 (by rw [length_append]; omega), append_assoc]

/-- **A string is written if it and the NUL fit.** -/
theorem jsonEsc_eq (n : ℕ) (s : Bytes) : jsonEsc n s =
    if (escText s).length < n then (some (escText s).length, escText s) else (none, escFail n) := by
  have hlen : (escText s).length = (s.flatMap escChar).length + 2 := by
    unfold escText
    rw [length_cons, length_append, length_singleton]
  obtain ⟨hwrote, hcan⟩ := escLoop_spec n s [quote]
  have hone : [quote].length = 1 := rfl
  unfold jsonEsc
  by_cases hfits : (escText s).length < n
  · have hput : put n quote [] = some [quote] := if_neg (by rw [length_nil]; omega)
    have hclose : put n quote ([quote] ++ s.flatMap escChar) = some (escText s) :=
      if_neg (by rw [length_append, hone]; omega)
    rw [hput, bind_some, hcan (by omega), bind_some, hclose, if_pos hfits]
  · rw [if_neg hfits]
    have hnone : ((put n quote []).bind (escLoop n s)).bind (put n quote) = none := by
      unfold put
      split
      · rfl
      · rw [bind_some]
        cases hloop : escLoop n s ([] ++ [quote]) with
        | none => rfl
        | some r =>
          have hr : r = [quote] ++ s.flatMap escChar := hwrote r hloop
          rw [bind_some, if_pos]
          rw [hr, length_append, hone]
          omega
    rw [hnone]

/-! ### What was written is read -/

/-- A control character is shown as a space. -/
def blank (c : UInt8) : UInt8 := if c < 0x20 then space else c

/-- The number of a control character is the one its two digits make, and it is shown as a space. -/
theorem control_facts : ∀ c : UInt8, c < 0x20 →
    codeUnit [0x30, 0x30, Text.digit (c.toNat / 16), Text.digit (c.toNat % 16)] = c.toNat ∧
      (c ≠ nul → shownCode c.toNat = [blank c]) := by
  decide +kernel

/-- The number of a control character. -/
theorem codePoint_control : ∀ {c : UInt8}, c < 0x20 → ∀ l : Bytes,
    codePoint (0x30 :: 0x30 :: Text.digit (c.toNat / 16) :: Text.digit (c.toNat % 16) :: l) =
      (c.toNat, l) := by
  intro c hc l
  have hfour :
      codeUnit (0x30 :: 0x30 :: Text.digit (c.toNat / 16) :: Text.digit (c.toNat % 16) :: l) =
      codeUnit [0x30, 0x30, Text.digit (c.toNat / 16), Text.digit (c.toNat % 16)] := rfl
  have hlt : c.toNat < 0x20 := UInt8.lt_iff_toNat_lt.mp hc
  unfold codePoint
  rw [hfour, (control_facts c hc).1]
  dsimp only
  rw [if_neg fun h => by omega]
  rfl

/-- **What is shown of a string that was written.** -/
theorem shown_flatMap_escChar {s : Bytes} (hs : nul ∉ s) :
    (written (s.flatMap escChar)).flatMap Written.shown = s.map blank := by
  induction s with
  | nil =>
    rw [flatMap_nil, written]
    rfl
  | cons c s ih =>
    rw [mem_cons, not_or] at hs
    rw [flatMap_cons, map_cons, ← ih hs.2]
    by_cases hq : c = quote ∨ c = backslash
    · have hnext : next backslash (c :: s.flatMap escChar) = (.letter c, s.flatMap escChar) := by
        unfold next
        dsimp only
        rw [if_pos rfl, if_neg]
        rcases hq with rfl | rfl
        · decide
        · decide
      have hchar : escChar c = [backslash, c] := if_pos hq
      have hsame : shownLetter c = [blank c] := by
        rcases hq with rfl | rfl
        · decide
        · decide
      rw [hchar, cons_append, singleton_append, written_cons, hnext, flatMap_cons]
      show shownLetter c ++ _ = _
      rw [hsame]
      rfl
    · by_cases hc : c < 0x20
      · have hnext : next backslash (0x75 :: 0x30 :: 0x30 :: Text.digit (c.toNat / 16) ::
            Text.digit (c.toNat % 16) :: s.flatMap escChar) =
            (.code c.toNat, s.flatMap escChar) := by
          unfold next
          dsimp only
          rw [if_pos rfl, if_pos rfl, codePoint_control hc]
        rw [escChar_control hq hc]
        simp only [cons_append, nil_append]
        rw [written_cons, hnext, flatMap_cons]
        show shownCode c.toNat ++ _ = _
        rw [(control_facts c hc).2 fun h => hs.1 h.symm]
        rfl
      · have hchar : escChar c = [c] := by
          unfold escChar
          rw [if_neg hq, if_neg hc]
        have hsame : blank c = c := if_neg hc
        rw [hchar, singleton_append, written_raw (fun _ => rfl) fun h => hq (.inr h), hsame]

theorem isHex_digit : ∀ d < 16, isHex (Text.digit d) = true := by decide

/-- What was written is what the grammar allows between quotes. -/
theorem chars_flatMap_escChar (s : Bytes) : Chars (strchr escapes) (s.flatMap escChar) := by
  induction s with
  | nil => exact .nil
  | cons c s ih =>
    rw [flatMap_cons]
    by_cases hq : c = quote ∨ c = backslash
    · have hchar : escChar c = [backslash, c] := if_pos hq
      rw [hchar]
      rcases hq with rfl | rfl
      · exact .escaped (by decide) (by decide) ih
      · exact .escaped (by decide) (by decide) ih
    · by_cases hc : c < 0x20
      · have hlt : c.toNat < 0x20 := UInt8.lt_iff_toNat_lt.mp hc
        rw [escChar_control hq hc]
        refine .unicode ?_ ih
        rw [isHex_digit _ (by omega), isHex_digit _ (by omega)]
        decide
      · have hchar : escChar c = [c] := by
          unfold escChar
          rw [if_neg hq, if_neg hc]
        rw [hchar]
        exact .unescaped hc (fun h => hq (.inl h)) (fun h => hq (.inr h)) ih

/-- **What was written is one token.** -/
theorem jsonParse_escText (j₀ : JsonDoc) {s : Bytes} (hlen : (escText s).length ≤ jsonMaxLen) :
    ∃ j, jsonParse j₀ (escText s) = .ok j ∧ j.s = escText s ∧
      j.t = [⟨.str, 1, 1 + (s.flatMap escChar).length, some 1⟩] := by
  have hR : (⟨escText s, 0, [], j₀.cap⟩ : P).Room := Nat.zero_le _
  have hrest : (⟨escText s, 0, [], j₀.cap⟩ : P).rest =
    quote :: (s.flatMap escChar ++ [quote]) := rfl
  have hpast : (⟨escText s, 0, [], j₀.cap⟩ : P).pastWs = ⟨escText s, 0, [], j₀.cap⟩ :=
    P.pastWs_eq (a := []) hrest (fun c hc => absurd hc not_mem_nil) (by
      intro c hc
      rw [← some.inj hc]
      decide)
  have hstring := (string_eq_ok (t := 0) (q := (⟨escText s, 0, [], j₀.cap⟩ : P).emit
    ((s.flatMap escChar).length + 2)
    (P.strTok ⟨escText s, 0, [], j₀.cap⟩ (s.flatMap escChar).length)) hR).mpr
    ⟨s.flatMap escChar, [], rfl, chars_flatMap_escChar s,
      (show 0 < jsonMaxTokens by decide), rfl, rfl⟩
  have hvalue : value (jsonDepth + 1) ⟨escText s, 0, [], j₀.cap⟩ =
      .ok (0, (⟨escText s, 0, [], j₀.cap⟩ : P).emit
      ((s.flatMap escChar).length + 2)
      (P.strTok ⟨escText s, 0, [], j₀.cap⟩ (s.flatMap escChar).length)) := by
    rw [value_cons (by rw [hpast]; exact hrest), hpast]
    unfold branch
    rw [if_pos rfl]
    exact hstring
  have hend : ((⟨escText s, 0, [], j₀.cap⟩ : P).emit ((s.flatMap escChar).length + 2)
      (P.strTok ⟨escText s, 0, [], j₀.cap⟩ (s.flatMap escChar).length)).rest = [] := by
    have hdrop : (escText s).drop ((s.flatMap escChar).length + 2) = [] := by
      refine drop_eq_nil_of_le ?_
      unfold escText
      rw [length_cons, length_append, length_singleton]
    rw [P.rest_emit]
    exact hdrop
  unfold jsonParse
  rw [if_neg (not_lt.mpr hlen), hvalue, Except.ok_bind]
  dsimp only
  rw [ws_eq, Except.ok_bind]
  generalize hq : (⟨escText s, 0, [], j₀.cap⟩ : P).emit ((s.flatMap escChar).length + 2)
    (P.strTok ⟨escText s, 0, [], j₀.cap⟩ (s.flatMap escChar).length) = q at hend
  have hdone : q.pastWs.i = q.pastWs.n := by
    have hempty := P.pastWs_eq (p := q) (a := []) (l := []) hend (fun c hc => absurd hc not_mem_nil)
      fun c hc => nomatch hc
    have hi : q.i = (s.flatMap escChar).length + 2 := by
      rw [← hq]
      exact Nat.zero_add _
    have hn : q.n = (s.flatMap escChar).length + 2 := by
      rw [← hq]
      show (escText s).length = _
      unfold escText
      rw [length_cons, length_append, length_singleton]
    rw [hempty]
    exact hi.trans hn.symm
  rw [if_pos hdone]
  exact ⟨_, rfl, rfl, by rw [← hq]; rfl⟩

/-! ### Both ways -/

/-- **What is shown of a text in a buffer** of `n` bytes: its first characters, as many as leave
room for the NUL. -/
structure Shows (text : Bytes) (n : ℕ) (out : Bytes) : Prop where
  room : out.length < n
  cut : ∃ m, out = ((written text).take m).flatMap Written.shown ∧
    (m < (written text).length → n ≤ (((written text).take (m + 1)).flatMap Written.shown).length)

/-- All of a text is shown where there is room for it. -/
theorem Shows.all {text out : Bytes} {n : ℕ} (h : Shows text n out)
    (hn : ((written text).flatMap Written.shown).length < n) :
    out = (written text).flatMap Written.shown := by
  obtain ⟨m, rfl, hmax⟩ := h.cut
  have hle : (((written text).take (m + 1)).flatMap Written.shown).length ≤
      ((written text).flatMap Written.shown).length := by
    have hsplit := congrArg (fun l => (l.flatMap Written.shown).length)
      (take_append_drop (m + 1) (written text))
    simp only [flatMap_append, length_append] at hsplit
    omega
  have hall : (written text).length ≤ m := by
    by_contra hm
    have hmore := hmax (not_le.mp hm)
    omega
  rw [take_of_length_le hall]

/-- **Reading and writing strings.**  Of a string in an accepted document, `json_str` reads its own
bytes only and writes what is shown of its first characters, as many as there is room for; the
characters stand for the string without its escapes, and all but control characters and halves of
surrogate pairs are shown as what they stand for.  What `json_esc` wrote of a string is one token,
of which `json_str` shows the string with a space for each control character. -/
theorem json_strings (j₀ : JsonDoc) :
    (∀ (s : Bytes) (j : JsonDoc), jsonParse j₀ s = .ok j → ∀ (t : ℕ) (k : Jtok), j.t[t]? = some k →
      k.type = .str → jsonStr j (some t) 0 = .ok (false, []) ∧
        ∀ n, 0 < n → ∃ out, jsonStr j (some t) n = .ok (true, out) ∧ Shows (j.text k) n out) ∧
    (∀ text, (written text).flatMap Written.plain = unescape text ∧
      ∀ w ∈ written text, ¬ w.Hidden → w.shown = w.plain) ∧
    ∀ s : Bytes, nul ∉ s → (∀ n, 6 * s.length + 2 < n → (jsonEsc n s).1 ≠ none) ∧
      ∀ (n l : ℕ) (out : Bytes), jsonEsc n s = (some l, out) → out.length = l ∧ l < n ∧
        (l ≤ jsonMaxLen → ∃ j k, jsonParse j₀ out = .ok j ∧ j.t = [k] ∧ k.type = .str ∧
          ∀ m, s.length < m → jsonStr j (some 0) m = .ok (true, s.map blank)) := by
  have hread : ∀ (s : Bytes) (j : JsonDoc), jsonParse j₀ s = .ok j →
      ∀ (t : ℕ) (k : Jtok), j.t[t]? = some k →
      k.type = .str → ∀ n, 0 < n →
      ∃ out, jsonStr j (some t) n = .ok (true, out) ∧ Shows (j.text k) n out := by
    intro s j h t k hk hstr n hn
    obtain ⟨m, hout, hroom, hmax⟩ := jsonStr_string h hk hstr hn
    exact ⟨_, hout, hroom, m, rfl, hmax⟩
  refine ⟨fun s j h t k hk hstr => ⟨rfl, hread s j h t k hk hstr⟩,
    fun text => ⟨plain_written text, fun w _ hw => Written.shown_eq_plain hw⟩, fun s hs =>
    ⟨fun n hn => ?_, ?_⟩⟩
  · have hlen := length_escText_le s
    rw [jsonEsc_eq, if_pos (by omega)]
    exact some_ne_none _
  · intro n l out hesc
    rw [jsonEsc_eq] at hesc
    split at hesc
    · next hfits =>
      obtain ⟨hl, rfl⟩ := Prod.mk.inj hesc
      rw [← some.inj hl]
      refine ⟨rfl, hfits, fun hlen => ?_⟩
      obtain ⟨j, hparse, hs', ht⟩ := jsonParse_escText j₀ hlen
      refine ⟨j, _, hparse, ht, rfl, fun m hm => ?_⟩
      have hk : j.t[0]? = some ⟨.str, 1, 1 + (s.flatMap escChar).length, some 1⟩ := by
        rw [ht]
        rfl
      obtain ⟨out, hout, hshows⟩ := hread _ j hparse 0 _ hk rfl m (Nat.zero_lt_of_lt hm)
      have htext : j.text ⟨.str, 1, 1 + (s.flatMap escChar).length, some 1⟩ =
          s.flatMap escChar := by
        unfold JsonDoc.text
        rw [hs', Nat.add_sub_cancel_left]
        exact take_left
      rw [htext] at hshows
      have hshown := shown_flatMap_escChar hs
      rw [hout, hshows.all (by rw [hshown, length_map]; exact hm), hshown]
    · cases (Prod.mk.inj hesc).1

/-- **A line feed is shown as a space**, and what was written of a string of a gigabyte is no
document. -/
theorem json_strings_shown :
    (∃ j out, jsonParse .empty [quote, backslash, 0x6e, quote] = .ok j ∧
      jsonStr j (some 0) 10 = .ok (true, out) ∧ ¬ out <+: unescape [backslash, 0x6e]) ∧
    ∃ s : Bytes, nul ∉ s ∧ ∀ (j₀ : JsonDoc) (n l : ℕ) (out : Bytes), jsonEsc n s = (some l, out) →
      jsonParse j₀ out = .error .refused := by
  refine ⟨⟨_, [space], rfl, rfl, by decide⟩, replicate (2 ^ 30) 0x61, ?_, ?_⟩
  · intro h
    exact absurd (mem_replicate.mp h).2 (by decide)
  · intro j₀ n l out hesc
    have hlen : jsonMaxLen < (escText (replicate (2 ^ 30) 0x61)).length := by
      have hraw : (replicate (2 ^ 30) (0x61 : UInt8)).flatMap escChar =
          replicate (2 ^ 30) 0x61 := by
        generalize 2 ^ 30 = m
        induction m with
        | zero => rfl
        | succ m ih =>
          rw [replicate_succ, flatMap_cons, ih]
          rfl
      unfold escText
      rw [hraw, length_cons, length_append, length_replicate, length_singleton]
      decide
    rw [jsonEsc_eq] at hesc
    split at hesc
    · rw [← (Prod.mk.inj hesc).2]
      unfold jsonParse
      rw [if_pos hlen]
    · cases (Prod.mk.inj hesc).1

end Hassmic.Json
