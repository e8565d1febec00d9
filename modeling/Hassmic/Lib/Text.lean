import Hassmic.Lib.Bytes

/-!
# Numbers in text

Printing and scanning numbers as the C library does: numerals in base 10 and 16,
white space and a sign skipped before them, and a field that ends at the first
character that is no digit.  What was printed is scanned back, whatever follows
it, as long as that is not another digit.

## Main definitions

* `Text.numeral` — a number printed in a base.
* `Text.unsigned`, `Text.signed` — the number at the start of a text, and the rest.
* `Text.literal`, `Text.strstr` — a fixed word at the start of a text, and where a word first
  occurs.

## Main results

* `Text.unsigned_digits`, `Text.signed_decimal` — scanning what was printed.
* `Text.strstr_append`, `Text.strstr_eq_none_iff` — where a word occurs, and that it does not.
-/

namespace Text

open Byte List Option

/-! ### Characters -/

/-- `isspace`. -/
def isSpace (c : UInt8) : Bool := c == space || (0x09 ≤ c && c ≤ 0x0d)

/-- `isalnum`. -/
def alnum (c : UInt8) : Bool :=
  isDigit c || (0x41 ≤ c && c ≤ 0x5a) || (0x61 ≤ c && c ≤ 0x7a)

/-- `tolower`. -/
def lower (c : UInt8) : UInt8 := if 0x41 ≤ c ∧ c ≤ 0x5a then c + 0x20 else c

/-- The digit of a value below 16, in lower case. -/
def digit (d : ℕ) : UInt8 := if d < 10 then (48 + d).toUInt8 else (87 + d).toUInt8

/-- The value of a digit, `16` for any other character. -/
def value (c : UInt8) : ℕ :=
  if 0x30 ≤ c ∧ c ≤ 0x39 then c.toNat - 48
  else if 0x61 ≤ c ∧ c ≤ 0x66 then c.toNat - 87
  else if 0x41 ≤ c ∧ c ≤ 0x46 then c.toNat - 55
  else 16

theorem value_digit : ∀ d < 16, value (digit d) = d := by decide

/-! ### Printing -/

/-- The number `n` in base `b`. -/
def numeral (b n : ℕ) : Bytes :=
  if n = 0 then [digit 0] else (b.digits n).reverse.map digit

/-- At least `k` characters, with zeros before them. -/
def pad (k : ℕ) (l : Bytes) : Bytes := List.replicate (k - l.length) (digit 0) ++ l

/-- `%d`. -/
def decimal (v : ℤ) : Bytes := (if v < 0 then [minus] else []) ++ numeral 10 v.natAbs

/-- `%02x` of each byte. -/
def hex (l : Bytes) : Bytes := l.flatMap fun c => [digit (c.toNat / 16), digit (c.toNat % 16)]

/-! ### Scanning -/

/-- The digits at the start of a text. -/
def digits (b : ℕ) (l : Bytes) : Bytes := l.takeWhile fun c => value c < b

/-- The number these digits make. -/
def ofDigits (b : ℕ) (l : Bytes) : ℕ := l.foldl (fun v c => b * v + value c) 0

/-- A sign, if there is one: whether it is a minus, and the rest. -/
def sign : Bytes → Bool × Bytes
  | [] => (false, [])
  | c :: l => if c = minus then (true, l) else if c = plus then (false, l) else (false, c :: l)

/-- `0x` before a digit, in base 16. -/
def radix (b : ℕ) : Bytes → Bytes
  | 0x30 :: c :: d :: l =>
      if b = 16 ∧ (c = 0x78 ∨ c = 0x58) ∧ value d < 16 then d :: l else 0x30 :: c :: d :: l
  | l => l

/-- White space, a sign and digits: whether there is a minus, the digits' number and
the rest; none if there is no digit. -/
def integer (b : ℕ) (l : Bytes) : Option (Bool × ℕ × Bytes) :=
  let r := sign (l.dropWhile isSpace)
  let l := radix b r.2
  if digits b l = [] then none
  else some (r.1, ofDigits b (digits b l), l.drop (digits b l).length)

/-- `strtoull`: a number too large is the largest one. -/
def unsigned (b : ℕ) (l : Bytes) : Option (UInt64 × Bytes) :=
  (integer b l).map fun r =>
    (if 2 ^ 64 ≤ r.2.1 then UInt64.ofNat (2 ^ 64 - 1)
      else if r.1 then -UInt64.ofNat r.2.1 else UInt64.ofNat r.2.1, r.2.2)

/-- `strtol`, of 32 bits. -/
def signed (l : Bytes) : Option (ℤ × Bytes) :=
  (integer 10 l).map fun r =>
    (max (-0x80000000) (min 0x7fffffff (if r.1 then -(r.2.1 : ℤ) else r.2.1)), r.2.2)

/-- The word `w` at the start of a text, none if another stands there. -/
def literal (w l : Bytes) : Option Bytes := if w <+: l then some (l.drop w.length) else none

@[simp] theorem literal_append (w l : Bytes) : literal w (w ++ l) = some l := by
  simp [literal]

/-! ### Scanning what was printed -/

/-- The text does not go on with a digit. -/
def Ends (b : ℕ) (l : Bytes) : Prop := ∀ c ∈ l.head?, b ≤ value c

variable {b : ℕ} {ds l : Bytes}

theorem digits_append (hds : ∀ c ∈ ds, value c < b) (hl : Ends b l) :
    digits b (ds ++ l) = ds := by
  have hrest : digits b l = [] := by
    cases l with
    | nil => rfl
    | cons c l =>
      have hc : b ≤ value c := hl c (by simp)
      rw [digits, takeWhile_cons, if_neg (by simpa using hc)]
  unfold digits at hrest ⊢
  rw [takeWhile_append_of_pos (by simpa using hds), hrest, append_nil]

theorem ofDigits_append (b : ℕ) (l : Bytes) (c : UInt8) :
    ofDigits b (l ++ [c]) = b * ofDigits b l + value c := by
  simp [ofDigits]

section Numeral

variable {b : ℕ}

theorem value_lt_of_mem_map (hb : b ≤ 16) {ds : List ℕ} (h : ∀ d ∈ ds, d < b) :
    ∀ c ∈ ds.map digit, value c < b := by
  intro c hc
  obtain ⟨d, hd, rfl⟩ := mem_map.mp hc
  have := h d hd
  rw [value_digit d (by omega)]
  exact this

theorem ofDigits_map (hb : b ≤ 16) {ds : List ℕ} (h : ∀ d ∈ ds, d < b) :
    ofDigits b (ds.reverse.map digit) = Nat.ofDigits b ds := by
  induction ds with
  | nil => rfl
  | cons d ds ih =>
    have hd := h d (by simp)
    rw [reverse_cons, map_append, map_singleton, ofDigits_append,
      ih fun e he => h e (by simp [he]), value_digit d (by omega), Nat.ofDigits_cons]
    omega

variable (hb : 1 < b) (hb' : b ≤ 16)
include hb hb'

theorem value_numeral (n : ℕ) : ∀ c ∈ numeral b n, value c < b := by
  unfold numeral
  split
  · intro c hc
    rw [mem_singleton.mp hc, value_digit 0 (by omega)]
    omega
  · refine value_lt_of_mem_map hb' fun d hd => ?_
    exact Nat.digits_lt_base hb (mem_reverse.mp hd)

theorem ofDigits_numeral (n : ℕ) : ofDigits b (numeral b n) = n := by
  unfold numeral
  split
  · next h =>
    rw [h]
    simp [ofDigits, value_digit 0 (by omega)]
  · rw [ofDigits_map hb' fun d hd => Nat.digits_lt_base hb hd, Nat.ofDigits_digits]

theorem ofDigits_pad (k n : ℕ) : ofDigits b (pad k (numeral b n)) = n := by
  have hzero : ∀ j, ofDigits b (List.replicate j (digit 0)) = 0 := by
    intro j
    induction j with
    | zero => rfl
    | succ j ih =>
      rw [replicate_succ', ofDigits_append, ih, value_digit 0 (by omega)]
      omega
  have happ : ∀ l l' : Bytes, ofDigits b l = 0 → ofDigits b (l ++ l') = ofDigits b l' := by
    intro l l' h
    unfold ofDigits at h ⊢
    rw [foldl_append, h]
  rw [pad, happ _ _ (hzero _), ofDigits_numeral hb hb']

theorem value_pad (k n : ℕ) : ∀ c ∈ pad k (numeral b n), value c < b := by
  intro c hc
  rcases mem_append.mp hc with h | h
  · rw [(mem_replicate.mp h).2, value_digit 0 (by omega)]
    omega
  · exact value_numeral hb hb' n c h

end Numeral

theorem numeral_ne_nil (b n : ℕ) : numeral b n ≠ [] := by
  unfold numeral
  split
  · simp
  · next h =>
    intro hnil
    have : b.digits n = [] := by simpa using hnil
    exact h (Nat.digits_eq_nil_iff_eq_zero.mp this)

/-! ### Lengths -/

theorem length_numeral_le {k n : ℕ} (hb : 1 < b) (hk : 0 < k) (hn : n < b ^ k) :
    (numeral b n).length ≤ k := by
  unfold numeral
  split
  · exact hk
  · rw [length_map, length_reverse]
    exact (Nat.digits_length_le_iff hb n).mpr hn

theorem length_decimal_le (v : Int32) : (decimal v.toInt).length ≤ 11 := by
  have hlo := v.le_toInt
  have hhi := v.toInt_lt
  have hnum : (numeral 10 v.toInt.natAbs).length ≤ 10 :=
    length_numeral_le (by omega) (by omega) (by omega)
  rw [decimal, length_append]
  split <;> simp <;> omega

@[simp] theorem length_hex (l : Bytes) : (hex l).length = 2 * l.length := by
  induction l with
  | nil => rfl
  | cons c l ih =>
    rw [hex, flatMap_cons, length_append, ← hex, ih]
    simp
    omega

/-! ### Numbers read back -/

/-- No digit is a white space, a sign or the `x` of `0x`. -/
theorem value_lt_16 : ∀ {c : UInt8}, value c < 16 →
    isSpace c = false ∧ c ≠ minus ∧ c ≠ plus ∧ c ≠ 0x78 ∧ c ≠ 0x58 := by
  decide +kernel

/-- Digits are scanned as the number they make. -/
theorem integer_digits (hb : b ≤ 16) (hne : ds ≠ [])
    (hds : ∀ c ∈ ds, value c < b) (hl : Ends b l) (hx : b = 16 → ds = [0x30] → Ends 16 (l.drop 1)) :
    integer b (ds ++ l) = some (false, ofDigits b ds, l) := by
  obtain ⟨c, ds', rfl⟩ : ∃ c ds', ds = c :: ds' := exists_cons_of_ne_nil hne
  obtain ⟨hsp, hm, hp, -⟩ := value_lt_16 (lt_of_lt_of_le (hds c (by simp)) hb)
  have hdrop : (c :: ds' ++ l).dropWhile isSpace = c :: ds' ++ l := by
    rw [cons_append, dropWhile_cons, if_neg (by simp [hsp])]
  have hsign : sign (c :: ds' ++ l) = (false, c :: ds' ++ l) := by
    rw [cons_append, sign, if_neg hm, if_neg hp]
  have hradix : radix b (c :: ds' ++ l) = c :: ds' ++ l := by
    unfold radix
    split
    · next x d e r heq =>
      rw [if_neg]
      · exact heq.symm
      rintro ⟨hsixteen, hd, he⟩
      cases ds' with
      | nil =>
        obtain ⟨rfl, rfl⟩ := List.cons.inj heq
        have := hx hsixteen rfl e (by simp)
        omega
      | cons d' ds' =>
        have hd' : d' = d := (List.cons.inj (List.cons.inj heq).2).1
        have := value_lt_16 (lt_of_lt_of_le (hds d' (by simp)) hb)
        rw [hd'] at this
        rcases hd with rfl | rfl
        · exact this.2.2.2.1 rfl
        · exact this.2.2.2.2 rfl
    · rfl
  unfold integer
  rw [hdrop, hsign]
  simp only [hradix, digits_append hds hl]
  rw [if_neg (by simp)]
  simp

/-- Digits that make a number of 64 bits are scanned as that number. -/
theorem unsigned_digits (hb : b ≤ 16) (hne : ds ≠ [])
    (hds : ∀ c ∈ ds, value c < b) (hl : Ends b l) (hx : b = 16 → ds = [0x30] → Ends 16 (l.drop 1))
    {v : UInt64} (hv : ofDigits b ds = v.toNat) : unsigned b (ds ++ l) = some (v, l) := by
  have hlt : ¬ 2 ^ 64 ≤ v.toNat := Nat.not_le.mpr v.toNat_lt
  rw [unsigned, integer_digits hb hne hds hl hx, map_some, hv]
  simp only [if_neg hlt]
  simp

theorem integer_space (b : ℕ) (l : Bytes) : integer b (space :: l) = integer b l := by
  have hsp : (space :: l).dropWhile isSpace = l.dropWhile isSpace := by
    rw [dropWhile_cons, if_pos (by decide)]
  unfold integer
  rw [hsp]

theorem radix_ten (l : Bytes) : radix 10 l = l := by
  unfold radix
  split
  · exact if_neg fun h => absurd h.1 (by decide)
  · rfl

theorem integer_minus (hne : ds ≠ []) (hds : ∀ c ∈ ds, value c < 10) (hl : Ends 10 l) :
    integer 10 (minus :: (ds ++ l)) = some (true, ofDigits 10 ds, l) := by
  have hdrop : (minus :: (ds ++ l)).dropWhile isSpace = minus :: (ds ++ l) := by
    rw [dropWhile_cons, if_neg (by decide)]
  have hsign : sign (minus :: (ds ++ l)) = (true, ds ++ l) := by
    rw [sign, if_pos rfl]
  unfold integer
  rw [hdrop, hsign]
  simp only [radix_ten, digits_append hds hl]
  rw [if_neg hne, drop_left]

/-- A number printed is scanned as the nearest one of 32 bits. -/
theorem signed_decimal_nearest (v : ℤ) (hl : Ends 10 l) :
    signed (decimal v ++ l) = some (max (-0x80000000) (min 0x7fffffff v), l) := by
  have hds := value_numeral (b := 10) (by omega) (by omega) v.natAbs
  have hne := numeral_ne_nil 10 v.natAbs
  have hval := ofDigits_numeral (b := 10) (by omega) (by omega) v.natAbs
  unfold signed decimal
  by_cases hneg : v < 0
  · rw [if_pos hneg, singleton_append, cons_append, integer_minus hne hds hl, hval,
      map_some]
    have habs : (v.natAbs : ℤ) = -v := by omega
    simp only [if_true, habs, neg_neg]
  · rw [if_neg hneg, nil_append,
      integer_digits (by omega) hne hds hl (fun h => absurd h (by decide)), hval, map_some]
    have habs : (v.natAbs : ℤ) = v := by omega
    simp only [Bool.false_eq_true, if_false, habs]

/-- **A number printed is scanned back**, whatever follows it that is no digit. -/
theorem signed_decimal {v : ℤ} (hlo : -0x80000000 ≤ v) (hhi : v ≤ 0x7fffffff) (hl : Ends 10 l) :
    signed (decimal v ++ l) = some (v, l) := by
  rw [signed_decimal_nearest v hl, min_eq_right hhi, max_eq_right hlo]

theorem signed_space (l : Bytes) : signed (space :: l) = signed l := by
  rw [signed, signed, integer_space]

theorem unsigned_space (b : ℕ) (l : Bytes) : unsigned b (space :: l) = unsigned b l := by
  rw [unsigned, unsigned, integer_space]

/-- A text that starts with anything but a digit. -/
theorem ends_of_head (hb : b ≤ 16) {c : UInt8} (hc : value c = 16) (l : Bytes) :
    Ends b (c :: l) := by
  intro d hd
  simp only [head?_cons, mem_some_iff] at hd
  rw [← hd, hc]
  exact hb

theorem literal_ne {a b : UInt8} (h : a ≠ b) (w l : Bytes) : literal (a :: w) (b :: l) = none := by
  rw [literal, if_neg]
  rintro ⟨r, hr⟩
  exact h (List.cons.inj hr).1

/-! ### Words in a text -/

/-- `strstr`: where a word first occurs. -/
def strstr (w : Bytes) : Bytes → Option ℕ
  | [] => if w = [] then some 0 else none
  | c :: l => if w <+: c :: l then some 0 else (strstr w l).map (· + 1)

section

variable {w l p r : Bytes} {q : UInt8}

/-- Where a word occurs, it is inside. -/
theorem strstr_le {d : ℕ} (h : strstr w l = some d) : d + w.length ≤ l.length := by
  induction l generalizing d with
  | nil =>
    unfold strstr at h
    split at h
    case isTrue hw =>
      rw [← Option.some.inj h, hw]
      exact le_rfl
    case isFalse => exact nomatch h
  | cons c l ih =>
    unfold strstr at h
    split at h
    case isTrue hw =>
      rw [← Option.some.inj h, Nat.zero_add]
      exact hw.length_le
    case isFalse =>
      obtain ⟨e, he, rfl⟩ := map_eq_some_iff.mp h
      have hle := ih he
      rw [length_cons]
      omega

/-- A word does not reach past a character that is not in it. -/
theorem prefix_of_not_mem (hq : q ∉ w) : w <+: p ++ q :: r ↔ w <+: p := by
  constructor
  · intro h
    rcases Nat.le_total w.length p.length with hle | hle
    · exact prefix_of_prefix_length_le h (prefix_append p _) hle
    · -- it would have the character
      obtain ⟨t, rfl⟩ := prefix_of_prefix_length_le (prefix_append p (q :: r)) h hle
      rw [prefix_append_right_inj] at h
      cases t with
      | nil =>
        rw [append_nil]
      | cons c t =>
        obtain ⟨rfl, -⟩ := cons_prefix_cons.mp h
        exact absurd (mem_append_right p mem_cons_self) hq
  · intro h
    exact h.trans (prefix_append p _)

/-- What has no first character of the word is passed over. -/
theorem strstr_append_of_not_mem {c : UInt8} (hc : c ∉ p) :
    strstr (c :: w) (p ++ l) = (strstr (c :: w) l).map (· + p.length) := by
  induction p with
  | nil => exact map_id'.symm
  | cons d p ih =>
    rw [mem_cons, not_or] at hc
    rw [cons_append, strstr, if_neg fun h =>
      hc.1 (cons_prefix_cons.mp h).1, ih hc.2, Option.map_map]
    rfl

/-- A word that is not in the first part, nor reaches past it, is in the second. -/
theorem strstr_append (hq : q ∉ w) :
    strstr w (p ++ q :: r) = (strstr w p).or ((strstr w (q :: r)).map (· + p.length)) := by
  induction p with
  | nil =>
    cases w with
    | nil => rfl
    | cons c w => exact map_id'.symm
  | cons d p ih =>
    have hsame : w <+: (d :: p) ++ q :: r ↔ w <+: d :: p := prefix_of_not_mem hq
    rw [cons_append] at hsame
    rw [cons_append, strstr, strstr, ih]
    by_cases hw : w <+: d :: p
    · rw [if_pos (hsame.mpr hw), if_pos hw]
      rfl
    · rw [if_neg fun h => hw (hsame.mp h), if_neg hw]
      cases strstr w p with
      | none => exact map_map ..
      | some i => rfl

theorem strstr_eq_none_iff : strstr w l = none ↔ ¬ w <:+: l := by
  induction l with
  | nil =>
    rw [strstr, infix_nil]
    split <;> simp_all
  | cons c l ih =>
    rw [strstr, infix_cons_iff, not_or, ← ih]
    split
    · next h => exact ⟨nofun, fun hn => absurd h hn.1⟩
    · next h =>
      rw [map_eq_none_iff]
      exact ⟨fun hn => ⟨h, hn⟩, fun hn => hn.2⟩

end

end Text
