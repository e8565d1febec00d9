import Hassmic.Mww.Manifest

/-!
# What a manifest is made of

A string is written with its quotes and backslashes escaped, and `jstr` reads it back whatever
stands in it; the search for a key passes over it, since no quote in it opens a key.  Languages are
written one by one, cut at their commas, and put together again: one that is empty is left out.

## Main definitions

* `escaped` — a text as it is written.
* `Plain` — a key of letters.
* `Passed` — a value that the search for a key passes over.
* `listed` — languages as they are written.

## Main results

* `jstr_escaped` — `jstr` reads what was escaped.
* `jkey_rows` — a key is found behind rows of other keys.
* `langsText_eq`, `langsLoop_listed` — all languages are written, and read one after the other.
* `foldl_addLang_nil` — the languages that are not empty are put together again.
-/

namespace Hassmic.Mww

open Byte List Option

/-! ### Escaped text -/

/-- A text without control characters, escaped. -/
def escaped (s : Bytes) : Bytes := s.flatMap Json.escChar

theorem escaped_cons (c : UInt8) (s : Bytes) :
    escaped (c :: s) = Json.escChar c ++ escaped s := flatMap_cons

/-- A character is written as it is, or with a backslash before it. -/
theorem escChar_cases (c : UInt8) :
    (Json.escChar c = [c] ∧ c ≠ quote ∧ c ≠ backslash) ∨
    (Json.escChar c = [backslash, c] ∧ (c = quote ∨ c = backslash)) ∨
      (c < 0x20 ∧ ∃ r, Json.escChar c = backslash :: r ∧ quote ∉ r) := by
  by_cases hq : c = quote ∨ c = backslash
  · exact Or.inr (Or.inl ⟨if_pos hq, hq⟩)
  · by_cases hc : c < 0x20
    · refine Or.inr (Or.inr ⟨hc, _, Json.escChar_control hq hc, ?_⟩)
      have hdigit : ∀ d < 16, Text.digit d ≠ quote := by decide
      have hlt : c.toNat < 32 := UInt8.lt_iff_toNat_lt.mp hc
      intro hmem
      simp only [mem_cons, not_mem_nil, or_false] at hmem
      rcases hmem with h | h | h | h | h
      · exact absurd h (by decide)
      · exact absurd h (by decide)
      · exact absurd h (by decide)
      · exact hdigit _ (by omega) h.symm
      · exact hdigit _ (by omega) h.symm
    · rw [not_or] at hq
      refine Or.inl ⟨?_, hq⟩
      unfold Json.escChar
      rw [if_neg (not_or.mpr hq), if_neg hc]

variable {s key langs : Bytes} {c : UInt8} {ps : List Bytes}

/-- Characters that need no escape are written as they are. -/
theorem escaped_eq (h : ∀ c ∈ s, 0x20 ≤ c ∧ c ≠ quote ∧ c ≠ backslash) : escaped s = s := by
  induction s with
  | nil => rfl
  | cons c s ih =>
    obtain ⟨hc, hq, hb⟩ := h c mem_cons_self
    rw [escaped_cons, ih fun d hd => h d (mem_cons_of_mem c hd)]
    rcases escChar_cases c with ⟨heq, -⟩ | ⟨-, rfl | rfl⟩ | ⟨hlt, -⟩
    · rw [heq, singleton_append]
    · exact absurd rfl hq
    · exact absurd rfl hb
    · exact absurd hlt (UInt8.not_lt.mpr hc)

theorem length_escaped_le (h : ∀ c ∈ s, 0x20 ≤ c) : (escaped s).length ≤ 2 * s.length := by
  induction s with
  | nil => exact le_rfl
  | cons c s ih =>
    have hrest := ih fun d hd => h d (mem_cons_of_mem c hd)
    have hchar : (Json.escChar c).length ≤ 2 := by
      rcases escChar_cases c with ⟨heq, -⟩ | ⟨heq, -⟩ | ⟨hlt, -⟩
      · rw [heq]
        exact (by decide : 1 ≤ 2)
      · rw [heq]
        exact (by decide : 2 ≤ 2)
      · exact absurd hlt (UInt8.not_lt.mpr (h c mem_cons_self))
    rw [escaped_cons, length_append, length_cons]
    omega

/-- `jesc` writes all of a text that fits with 7 bytes left. -/
theorem jesc_eq {cap : ℕ} {out : Bytes} (h : ∀ c ∈ s, 0x20 ≤ c)
    (hcap : out.length + 2 * s.length + 6 < cap) :
    jesc cap out s = out ++ escaped s := by
  induction s generalizing out with
  | nil => exact (append_nil out).symm
  | cons c s ih =>
    have hc := h c mem_cons_self
    rw [length_cons] at hcap
    have hchar := @length_escaped_le [c] fun d hd => by rwa [mem_singleton.mp hd]
    rw [escaped_cons, length_singleton, length_append] at hchar
    unfold jesc
    rw [if_pos (by omega), ih (fun d hd => h d (mem_cons_of_mem c hd))
      (by rw [length_append]; omega), append_assoc, escaped_cons]

/-- The first quote that is not escaped ends a text. -/
theorem escaped_prefix {r : Bytes} (hkey : ∀ c ∈ key, c ≠ quote ∧ c ≠ backslash)
    (h : key ++ [quote] <+: escaped s ++ quote :: r) : escaped s = key := by
  induction s generalizing key with
  | nil =>
    cases key with
    | nil => rfl
    | cons k key => exact absurd (cons_prefix_cons.mp h).1 (hkey k mem_cons_self).1
  | cons c s ih =>
    rcases escChar_cases c with ⟨heq, hq, -⟩ | ⟨heq, -⟩ | ⟨-, t, heq, -⟩
    · rw [escaped_cons, heq] at h ⊢
      cases key with
      | nil => exact absurd (cons_prefix_cons.mp h).1.symm hq
      | cons k key =>
        obtain ⟨hk, hrest⟩ := cons_prefix_cons.mp h
        rw [ih (fun d hd => hkey d (mem_cons_of_mem k hd)) hrest, singleton_append, hk]
    all_goals
      rw [escaped_cons, heq] at h
      cases key with
      | nil => exact absurd (cons_prefix_cons.mp h).1 (by decide)
      | cons k key => exact absurd (cons_prefix_cons.mp h).1 (hkey k mem_cons_self).2

/-- **`jstr` reads what was escaped.** -/
theorem jstr_escaped {cap : ℕ} {out : Bytes} (r : Bytes) (h : ∀ c ∈ s, 0x20 ≤ c)
    (hcap : out.length + s.length < cap) :
    jstr cap out (escaped s ++ quote :: r) = (out ++ s, some r) := by
  induction s generalizing out with
  | nil =>
    show jstr cap out (quote :: r) = _
    unfold jstr
    rw [if_pos rfl, append_nil]
  | cons c s ih =>
    have hc := h c mem_cons_self
    rw [length_cons] at hcap
    have hput : put cap out c = out ++ [c] := if_pos ⟨hc, by omega⟩
    have hrest := @ih (out ++ [c]) (fun d hd => h d (mem_cons_of_mem c hd))
      (by rw [length_append, length_singleton]; omega)
    rw [append_assoc, singleton_append] at hrest
    rcases escChar_cases c with ⟨heq, hq, hb⟩ | ⟨heq, hqb⟩ | ⟨hlt, -⟩
    · rw [escaped_cons, heq, singleton_append, cons_append]
      unfold jstr
      rw [if_neg hq, if_pos hb, hput, hrest]
    · have hkept : unescape c = c ∧ c ≠ 0x75 := by
        rcases hqb with rfl | rfl
        · exact ⟨by decide, by decide⟩
        · exact ⟨by decide, by decide⟩
      rw [escaped_cons, heq, cons_append, singleton_append, cons_append, cons_append]
      unfold jstr
      rw [if_neg (by decide), if_neg (by decide)]
      dsimp only
      rw [if_pos hkept.2, hkept.1, hput, hrest]
    · exact absurd hlt (UInt8.not_lt.mpr hc)

/-! ### Finding a key -/

/-- A key of letters and `_`: its characters are above the quote, the colon and the brackets. -/
def Plain (key : Bytes) : Prop := key ≠ [] ∧ ∀ c ∈ key, 0x5f ≤ c

instance (key : Bytes) : Decidable (Plain key) :=
  decidable_of_iff (key ≠ [] ∧ key.all (fun c => 0x5f ≤ c) = true) (by simp [Plain])

theorem Plain.ne (h : Plain key) : ∀ c ∈ key, c ≠ quote ∧ c ≠ backslash := by
  intro c hc
  have hle := h.2 c hc
  refine ⟨?_, ?_⟩ <;> rintro rfl <;> exact absurd hle (by decide)

theorem Plain.escaped (h : Plain key) : escaped key = key := by
  refine escaped_eq fun c hc => ⟨?_, h.ne c hc⟩
  exact UInt8.le_trans (by decide) (h.2 c hc)

theorem labelAt_ne (hc : c ≠ quote) (key l : Bytes) : labelAt key (c :: l) = none := by
  unfold labelAt
  rw [cons_append, Text.literal_ne hc.symm]
  rfl

theorem labelAt_some {l v : Bytes} (h : labelAt key l = some v) : key.length + 2 < l.length := by
  unfold labelAt Text.literal at h
  split at h
  · next hprefix =>
    have hlen := hprefix.length_le
    rw [bind_some] at h
    split at h
    · cases h
    · next c w hws =>
      -- something is left behind the key, the colon at least
      have hne : l.drop (quote :: key ++ [quote]).length ≠ [] := by
        intro hnil
        rw [hnil] at hws
        cases hws
      have hpos := length_pos_iff.mpr hne
      rw [length_drop] at hpos
      simp only [length_append, length_cons, length_nil] at hlen hpos
      omega
  · cases h

/-- `jkey` looks at each place in turn. -/
theorem jkey_cons (key : Bytes) (c : UInt8) (l : Bytes) :
    jkey key (c :: l) = (labelAt key (c :: l)).or (jkey key l) := by
  have hshort : ∀ l : Bytes, l.length ≤ key.length + 2 → jkey key l = none := by
    intro l hl
    cases l with
    | nil => rfl
    | cons c l => exact if_pos hl
  by_cases hlen : (c :: l).length ≤ key.length + 2
  · have hlabel : labelAt key (c :: l) = none := by
      cases hv : labelAt key (c :: l) with
      | none => rfl
      | some v => exact absurd (labelAt_some hv) (by omega)
    rw [hshort _ hlen, hlabel, hshort l (by rw [length_cons] at hlen; omega)]
    rfl
  · have hstep : jkey key (c :: l) = _ := if_neg hlen
    rw [hstep]
    cases labelAt key (c :: l) with
    | none => rfl
    | some v => rfl

/-- Text without quotes is passed over. -/
theorem jkey_passed {t : Bytes} (ht : quote ∉ t) (key l : Bytes) :
    jkey key (t ++ l) = jkey key l := by
  induction t with
  | nil => rfl
  | cons c t ih =>
    rw [mem_cons, not_or] at ht
    rw [cons_append, jkey_cons, labelAt_ne (Ne.symm ht.1), none_or, ih ht.2]

/-- At a quote there is no key that is not followed by a colon, or that is another text. -/
theorem labelAt_escaped (hkey : Plain key) (s : Bytes) (l : Bytes)
    (hc : escaped s = key → c ≠ colon ∧ Text.isSpace c = false) :
    labelAt key (quote :: (escaped s ++ quote :: c :: l)) = none := by
  unfold labelAt Text.literal
  split
  · next hprefix =>
    rw [cons_append] at hprefix
    have heq := escaped_prefix hkey.ne (cons_prefix_cons.mp hprefix).2
    have hdrop : (quote :: (escaped s ++ quote :: c :: l)).drop
        (quote :: key ++ [quote]).length = c :: l := by
      have happ : quote :: (escaped s ++ quote :: c :: l) =
          (quote :: key ++ [quote]) ++ (c :: l) := by
        rw [heq]
        simp
      rw [happ, drop_left]
    have hskip : skipWs (c :: l) = c :: l := by
      unfold skipWs
      rw [dropWhile_cons, if_neg (by rw [(hc heq).2]; exact Bool.false_ne_true)]
    rw [hdrop, bind_some, hskip]
    exact if_neg (hc heq).1
  · rfl

/-- Nor is there one at the closing quote. -/
theorem labelAt_close (hkey : Plain key) (hc : c < 0x5f) (l : Bytes) :
    labelAt key (quote :: c :: l) = none := by
  obtain ⟨k, ks, rfl⟩ : ∃ k ks, key = k :: ks := exists_cons_of_ne_nil hkey.1
  unfold labelAt Text.literal
  rw [if_neg]
  · rfl
  · intro hprefix
    obtain ⟨-, hrest⟩ := cons_prefix_cons.mp hprefix
    obtain ⟨rfl, -⟩ := cons_prefix_cons.mp hrest
    exact absurd hc (UInt8.not_lt.mpr (hkey.2 k mem_cons_self))

/-- What may follow a string that is no key. -/
def Separates (c : UInt8) : Prop := c = comma ∨ c = rbracket

theorem Separates.facts (h : Separates c) :
    c < 0x5f ∧ c ≠ quote ∧ c ≠ colon ∧ Text.isSpace c = false := by
  rcases h with rfl | rfl <;> decide

/-- **A string is passed over**, whatever stands in it. -/
theorem jkey_quoted (hkey : Plain key) (s : Bytes) (hc : Separates c) (l : Bytes) :
    jkey key (quoted (escaped s) ++ c :: l) = jkey key (c :: l) := by
  have hinside : jkey key (escaped s ++ quote :: c :: l) = jkey key (c :: l) := by
    induction s with
    | nil =>
      show jkey key (quote :: c :: l) = _
      rw [jkey_cons, labelAt_close hkey hc.facts.1, none_or]
    | cons d s ih =>
      rw [escaped_cons, append_assoc]
      rcases escChar_cases d with ⟨heq, hq, -⟩ | ⟨heq, rfl | rfl⟩ | ⟨-, t, heq, ht⟩
      · rw [heq, jkey_passed (by simpa using hq.symm), ih]
      · -- an escaped quote could open a key, if a colon stood behind the next quote
        rw [heq, cons_append, singleton_append, jkey_cons, labelAt_ne (by decide), none_or,
          jkey_cons, labelAt_escaped hkey s l fun _ => hc.facts.2.2, none_or, ih]
      · rw [heq, jkey_passed (by decide), ih]
      · rw [heq, jkey_passed (not_mem_cons_of_ne_of_not_mem (by decide) ht), ih]
  have hopen : quoted (escaped s) ++ c :: l =
    quote :: (escaped s ++ quote :: c :: l) := by simp [quoted]
  rw [hopen, jkey_cons, labelAt_escaped hkey s l fun _ => hc.facts.2.2, none_or, hinside]

/-- Another key is passed over. -/
theorem jkey_other {other : Bytes} (hkey : Plain key) (hother : Plain other)
    (hne : other ≠ key) (l : Bytes) :
    jkey key (quoted other ++ colon :: l) = jkey key l := by
  have hopen : quoted other ++ colon :: l = quote :: (escaped other ++ quote :: colon :: l) := by
    simp [quoted, hother.escaped]
  have hquote : quote ∉ other := fun hmem => (hother.ne quote hmem).1 rfl
  rw [hopen, jkey_cons, labelAt_escaped hkey other l fun heq =>
    absurd (hother.escaped.symm.trans heq) hne, none_or, hother.escaped, jkey_passed hquote,
      jkey_cons, labelAt_close hkey (by decide), none_or,
    jkey_cons, labelAt_ne (by decide), none_or]

/-- **A key is found.** -/
theorem jkey_found (key l : Bytes) : jkey key (quoted key ++ colon :: l) = some (skipWs l) := by
  have hlabel : labelAt key (quoted key ++ colon :: l) = some (skipWs l) := by
    unfold labelAt
    have happ : quoted key ++ colon :: l = (quote :: key ++ [quote]) ++ colon :: l := rfl
    rw [happ, Text.literal_append, bind_some]
    have hskip : skipWs (colon :: l) = colon :: l := by
      unfold skipWs
      rw [dropWhile_cons, if_neg (by decide)]
    rw [hskip]
    exact if_pos rfl
  have hcons : quoted key ++ colon :: l = quote :: (key ++ quote :: colon :: l) := by simp [quoted]
  rw [hcons] at hlabel ⊢
  rw [jkey_cons, hlabel]
  rfl

theorem length_quoted (t : Bytes) : (quoted t).length = t.length + 2 := by
  simp [quoted]

/-! ### Rows -/

/-- A value, and what is written behind it, that the search for a key passes over. -/
def Passed (value after : Bytes) : Prop :=
  ∀ key, Plain key → ∀ l, jkey key (value ++ (after ++ l)) = jkey key l

theorem Row.text_append (r : Row) (l : Bytes) :
    r.text ++ l = quoted r.key ++ colon :: space :: (r.value ++ (r.after ++ l)) := by
  simp [Row.text]

/-- A value without quotes. -/
theorem passed_plain {value after : Bytes} (hvalue : quote ∉ value) (hafter : quote ∉ after) :
    Passed value after := by
  intro k _ l
  rw [jkey_passed hvalue, jkey_passed hafter]

/-- A string, and a comma behind it. -/
theorem passed_quoted (s : Bytes) {after : Bytes} (hafter : quote ∉ after) :
    Passed (quoted (escaped s)) (comma :: after) := by
  intro k hk l
  show jkey k (quoted (escaped s) ++ comma :: (after ++ l)) = jkey k l
  rw [jkey_quoted hk s (Or.inl rfl), jkey_cons, labelAt_ne (by decide), none_or, jkey_passed hafter]

/-- The rows before the one that is looked for are passed over, and its value is found. -/
theorem jkey_rows (hkey : Plain key) {before : List Row}
    (hpassed : ∀ r ∈ before, Plain r.key ∧ Passed r.value r.after) (hne : ∀ r ∈ before, r.key ≠ key)
    (value after : Bytes) (rest : List Row) {start : Bytes} (hstart : quote ∉ start) :
    jkey key (start ++ (before ++ ⟨key, value, after⟩ :: rest).flatMap Row.text) =
      some (skipWs (value ++ (after ++ rest.flatMap Row.text))) := by
  rw [jkey_passed hstart]
  induction before with
  | nil =>
    rw [nil_append, flatMap_cons, Row.text_append, jkey_found]
    unfold skipWs
    rw [dropWhile_cons, if_pos (by decide)]
  | cons r before ih =>
    have hr := hpassed r mem_cons_self
    rw [cons_append, flatMap_cons, Row.text_append, jkey_other hkey hr.1 (hne r mem_cons_self),
      jkey_cons, labelAt_ne (by decide), none_or, hr.2 key hkey,
      ih (fun r' h => hpassed r' (mem_cons_of_mem r h)) fun r' h => hne r' (mem_cons_of_mem r h)]

/-! ### Languages -/

/-- One more language. -/
def more (p : Bytes) : Bytes := comma :: space :: quoted (escaped p)

/-- Languages between their brackets. -/
def listed : List Bytes → Bytes
  | [] => []
  | p :: ps => quoted (escaped p) ++ ps.flatMap more

/-- A language is written whole. -/
theorem writeLang_eq {p : Bytes} (hp : ∀ c ∈ p, 0x20 ≤ c) (hlen : p.length ≤ 62)
    (hroom : langs.length + 2 * p.length + 4 < 300) :
    writeLang langs p = langs ++ (if langs = [] then [] else [comma, space]) ++
      quoted (escaped p) := by
  have htake : p.take 63 = p := take_of_length_le (by omega)
  have hesc : jesc 140 [] p = escaped p := jesc_eq hp (by rw [length_nil]; omega)
  have hlength := length_escaped_le hp
  unfold writeLang
  rw [htake, hesc]
  dsimp only
  rw [if_pos (by omega), append_assoc]
  rfl

/-- **All languages are written.** -/
theorem foldl_writeLang (hps : ∀ p ∈ ps, (∀ c ∈ p, 0x20 ≤ c) ∧ p.length ≤ 62)
    (hne : langs ≠ []) (hroom : langs.length + 4 * Text.room ps < 300) :
    ps.foldl writeLang langs = langs ++ ps.flatMap more := by
  induction ps generalizing langs with
  | nil => exact (append_nil langs).symm
  | cons p ps ih =>
    obtain ⟨hp, hlen⟩ := hps p mem_cons_self
    have hlength := length_escaped_le hp
    rw [Text.room_cons] at hroom
    rw [foldl_cons, writeLang_eq hp hlen (by omega), if_neg hne,
      ih (fun q hq => hps q (mem_cons_of_mem p hq))]
    · simp [more]
    · simp [quoted]
    · simp only [length_append, length_quoted, length_cons, length_nil]
      omega

theorem langsText_eq (h : Shown 63 langs) :
    langsText langs = listed (Text.pieces comma [] langs) := by
  have hroom := Text.room_pieces comma [] langs
  have hlangs := h.1
  rw [length_nil] at hroom
  have hps : ∀ p ∈ Text.pieces comma [] langs, (∀ c ∈ p, 0x20 ≤ c) ∧ p.length ≤ 62 := by
    intro p hp
    have hle := Text.length_le_room hp
    refine ⟨fun c hc => ?_, by omega⟩
    rcases Text.mem_pieces hp c hc with hc | hc
    · cases hc
    · exact h.2 c hc
  unfold langsText
  generalize Text.pieces comma [] langs = ps at hps hroom
  cases ps with
  | nil => rfl
  | cons p ps =>
    obtain ⟨hp, hlen⟩ := hps p mem_cons_self
    have hlength := length_escaped_le hp
    rw [Text.room_cons] at hroom
    rw [foldl_cons, writeLang_eq hp hlen (by rw [length_nil]; omega), if_pos rfl,
      foldl_writeLang (fun q hq => hps q (mem_cons_of_mem p hq))]
    · rfl
    · simp [quoted]
    · simp only [length_append, length_quoted, length_nil]
      omega

/-- The search for another key passes over a list of strings. -/
theorem jkey_listed (hkey : Plain key) (ps : List Bytes) (l : Bytes) :
    jkey key (listed ps ++ rbracket :: l) = jkey key l := by
  have hclose : jkey key (rbracket :: l) = jkey key l := by
    rw [jkey_cons, labelAt_ne (by decide), none_or]
  cases ps with
  | nil => exact hclose
  | cons p ps =>
    show jkey key (quoted (escaped p) ++ ps.flatMap more ++ rbracket :: l) = _
    rw [append_assoc]
    induction ps generalizing p with
    | nil => exact (jkey_quoted hkey p (Or.inr rfl) l).trans hclose
    | cons q ps ih =>
      have hmore : (q :: ps).flatMap more ++ rbracket :: l =
          comma :: space :: (quoted (escaped q) ++ (ps.flatMap more ++ rbracket :: l)) := by
        simp [more]
      rw [hmore, jkey_quoted hkey p (Or.inl rfl), jkey_cons, labelAt_ne (by decide),
        none_or, jkey_cons, labelAt_ne (by decide), none_or, ih]

theorem langsLoop_end (hc : c ≠ quote) (n : ℕ) (langs l : Bytes) :
    langsLoop n langs (c :: l) = langs := by
  cases n with
  | zero => rfl
  | succ n => exact if_neg hc

/-- One round of the loop. -/
theorem langsLoop_quoted {p : Bytes} (hp : ∀ c ∈ p, 0x20 ≤ c) (hlen : p.length < 64)
    (n : ℕ) (langs : Bytes) (hc : Separates c) (l : Bytes) :
    langsLoop (n + 1) langs (quoted (escaped p) ++ c :: l) =
      langsLoop n (addLang langs p) (if c = comma then skipWs l else c :: l) := by
  have hopen : quoted (escaped p) ++ c :: l =
    quote :: (escaped p ++ quote :: c :: l) := by simp [quoted]
  have hskip : skipWs (c :: l) = c :: l := by
    unfold skipWs
    rw [dropWhile_cons, if_neg (by rw [hc.facts.2.2.2]; exact Bool.false_ne_true)]
  have hread := @jstr_escaped p 64 [] (c :: l) hp (by rw [length_nil]; omega)
  rw [nil_append] at hread
  rw [hopen, langsLoop, if_pos rfl, hread]
  dsimp only
  rw [hskip]

/-- **The languages that were written are read**, one after the other. -/
theorem langsLoop_listed (hps : ∀ p ∈ ps, (∀ c ∈ p, 0x20 ≤ c) ∧ p.length < 64) {n : ℕ}
    (hn : ps.length ≤ n) (langs l : Bytes) :
    langsLoop n langs (listed ps ++ rbracket :: l) = ps.foldl addLang langs := by
  cases ps with
  | nil => exact langsLoop_end (by decide) n langs l
  | cons p ps =>
    show langsLoop n langs (quoted (escaped p) ++ ps.flatMap more ++ rbracket :: l) = _
    rw [append_assoc]
    induction ps generalizing p n langs with
    | nil =>
      obtain ⟨hp, hlen⟩ := hps p mem_cons_self
      obtain ⟨m, rfl⟩ : ∃ m, n = m + 1 := ⟨n - 1, by rw [length_singleton] at hn; omega⟩
      show langsLoop (m + 1) langs (quoted (escaped p) ++ rbracket :: l) = _
      rw [langsLoop_quoted hp hlen m langs (Or.inr rfl), if_neg (by decide),
        langsLoop_end (by decide)]
      rfl
    | cons q ps ih =>
      obtain ⟨hp, hlen⟩ := hps p mem_cons_self
      obtain ⟨m, rfl⟩ : ∃ m, n = m + 1 := ⟨n - 1, by rw [length_cons] at hn; omega⟩
      have hmore : (q :: ps).flatMap more ++ rbracket :: l =
          comma :: space :: (quoted (escaped q) ++ (ps.flatMap more ++ rbracket :: l)) := by
        simp [more]
      have hskip : skipWs (space :: (quoted (escaped q) ++ (ps.flatMap more ++ rbracket :: l))) =
          quoted (escaped q) ++ (ps.flatMap more ++ rbracket :: l) := by
        unfold skipWs
        rw [dropWhile_cons, if_pos (by decide)]
        exact dropWhile_cons_of_neg (by decide)
      rw [hmore, langsLoop_quoted hp hlen m langs (Or.inl rfl), if_pos rfl, hskip,
        ih _ q (fun r hr => hps r (mem_cons_of_mem p hr))
        (by simp only [length_cons] at hn ⊢; omega)]
      rfl

/-! ### Languages that are put together -/

/-- Languages behind others, with a comma each; an empty one is left out. -/
theorem foldl_addLang (hne : langs ≠ []) (hroom : langs.length + Text.room ps ≤ 62) :
    ps.foldl addLang langs = langs ++ (ps.filter (· ≠ [])).flatMap fun q => comma :: q := by
  induction ps generalizing langs with
  | nil => exact (append_nil langs).symm
  | cons p ps ih =>
    rw [Text.room_cons] at hroom
    by_cases hp : p = []
    · have hadd : addLang langs p = langs := if_neg fun h => h.1 hp
      rw [foldl_cons, hadd, ih hne (by omega), filter_cons_of_neg (by simpa using hp)]
    · have hadd : addLang langs p = langs ++ [comma] ++ p := by
        unfold addLang
        rw [if_pos ⟨hp, by omega⟩, if_neg hne]
      rw [foldl_cons, hadd, ih (by simp) (by
        rw [length_append, length_append, length_singleton]
        omega), filter_cons_of_pos (by simpa using hp), flatMap_cons]
      simp

/-- The same, from the start. -/
theorem foldl_addLang_nil (hroom : Text.room ps ≤ 63) (hps : ∀ p ∈ ps, p.length ≤ 61) :
    ps.foldl addLang [] = [comma].intercalate (ps.filter (· ≠ [])) := by
  induction ps with
  | nil => rfl
  | cons p ps ih =>
    rw [Text.room_cons] at hroom
    by_cases hp : p = []
    · have hadd : addLang [] p = [] := if_neg fun h => h.1 hp
      rw [foldl_cons, hadd, ih (by omega) fun q hq => hps q (mem_cons_of_mem p hq),
        filter_cons_of_neg (by simpa using hp)]
    · have hlen := hps p mem_cons_self
      have hadd : addLang [] p = p := by
        unfold addLang
        rw [if_pos ⟨hp, by rw [length_nil]; omega⟩, if_pos rfl]
        rfl
      rw [foldl_cons, hadd, foldl_addLang hp (by omega), filter_cons_of_pos (by simpa using hp),
        Text.intercalate_cons]

end Hassmic.Mww
