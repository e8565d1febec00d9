import Hassmic.Json.Tree

/-!
# The characters of a string, as they are written

A string is read one character at a time: a byte sequence as it stands, an escape of one letter, or
a code point by its number.  What a character stands for is what the grammar says of it; what is
shown of it is kept on one line, so a control character is a space or nothing.

## Main definitions

* `Written` — one character as it is written.
* `Written.plain`, `Written.shown` — what it stands for, and what is shown of it.
* `next`, `written` — the characters of a text.

## Main results

* `plain_written` — **together they stand for the text without its escapes**.
* `written_raw` — how bytes that stand for themselves are grouped does not matter.
-/

namespace Hassmic.Json

open Byte List

/-! ### Written characters -/

/-- What is shown of a backslash and this letter. -/
def shownLetter (e : UInt8) : Bytes :=
  if e = 0x6e ∨ e = 0x72 ∨ e = 0x74 then [space] else if e = 0x62 ∨ e = 0x66 then [] else [e]

/-- What is shown of a code point; half of a surrogate pair is none. -/
def shownCode (v : ℕ) : Bytes :=
  let v := if 0xD800 ≤ v ∧ v < 0xE000 then 0xFFFD else v
  if v = 0 then [] else if v < 0x20 then utf8 space.toNat else utf8 v

/-- One character as it is written. -/
inductive Written
  /-- A sequence of bytes, as it stands. -/
  | raw (l : Bytes)
  /-- A backslash and this letter. -/
  | letter (e : UInt8)
  /-- The number of a code point, or half of a surrogate pair. -/
  | code (v : ℕ)

namespace Written

/-- What a character stands for. -/
def plain : Written → Bytes
  | raw l => l
  | letter e => [escaped e]
  | code v => utf8 v

/-- What is shown of a character. -/
def shown : Written → Bytes
  | raw l => l
  | letter e => shownLetter e
  | code v => shownCode v

/-- The character is a control character, or half of a surrogate pair. -/
def Hidden : Written → Prop
  | raw _ => False
  | letter e => e = 0x62 ∨ e = 0x66 ∨ e = 0x6e ∨ e = 0x72 ∨ e = 0x74
  | code v => v < 0x20 ∨ 0xD800 ≤ v ∧ v < 0xE000

/-- **All but control characters and halves of pairs** are shown as what they stand for. -/
theorem shown_eq_plain {w : Written} (h : ¬ w.Hidden) : w.shown = w.plain := by
  cases w with
  | raw l => rfl
  | letter e =>
    have hne : e ≠ 0x62 ∧ e ≠ 0x66 ∧ e ≠ 0x6e ∧ e ≠ 0x72 ∧ e ≠ 0x74 := by
      unfold Hidden at h
      tauto
    obtain ⟨hb, hf, hn, hr, ht⟩ := hne
    unfold shown plain escaped
    dsimp only
    unfold shownLetter
    rw [if_neg (by tauto), if_neg (by tauto), if_neg hb, if_neg hf, if_neg hn, if_neg hr, if_neg ht]
  | code v =>
    have hrange : ¬ v < 0x20 ∧ ¬ (0xD800 ≤ v ∧ v < 0xE000) := not_or.mp h
    unfold shown plain
    dsimp only
    unfold shownCode
    dsimp only
    rw [if_neg hrange.2, if_neg (by omega), if_neg hrange.1]

end Written

/-! ### The characters of a text -/

/-- A byte inside of a sequence of UTF-8. -/
def isCont (c : UInt8) : Bool := c &&& 0xC0 == 0x80

/-- How many bytes follow the first byte of a sequence. -/
def tailLen (c : UInt8) : ℕ :=
  if 0xF0 ≤ c then 3 else if 0xE0 ≤ c then 2 else if 0xC0 ≤ c then 1 else 0

/-- The first character of a text, and the rest. -/
def next (c : UInt8) (l : Bytes) : Written × Bytes :=
  if c = backslash then
    match l with
    | [] => (.raw [], [])
    | e :: l => if e = 0x75 then (.code (codePoint l).1, (codePoint l).2) else (.letter e, l)
  else if tailLen c ≤ l.length ∧ (l.take (tailLen c)).all isCont then
    (.raw (c :: l.take (tailLen c)), l.drop (tailLen c))
  else (.raw [c], l)

theorem length_codePoint_le (l : Bytes) : (codePoint l).2.length ≤ l.length := by
  unfold codePoint
  dsimp only
  split
  · rw [length_drop, length_drop]
    omega
  · rw [length_drop]
    omega

theorem length_next_le (c : UInt8) (l : Bytes) : (next c l).2.length ≤ l.length := by
  unfold next
  split
  · cases l with
    | nil => exact le_rfl
    | cons e l =>
      dsimp only
      split
      · exact (length_codePoint_le l).trans (Nat.le_succ _)
      · exact Nat.le_succ _
  · split
    · rw [length_drop]
      omega
    · exact le_rfl

/-- **The characters of a text.** -/
def written : Bytes → List Written
  | [] => []
  | c :: l => (next c l).1 :: written (next c l).2
termination_by l => l.length
decreasing_by exact Nat.lt_succ_of_le (length_next_le c l)

theorem written_cons (c : UInt8) (l : Bytes) :
    written (c :: l) = (next c l).1 :: written (next c l).2 := by
  rw [written]

theorem ne_backslash_of_isCont : ∀ {c : UInt8}, isCont c = true →
    c ≠ backslash ∧ tailLen c = 0 := by
  decide +kernel

/-- Bytes inside of a sequence stand for themselves. -/
theorem written_conts {f : Written → Bytes} (hf : ∀ l, f (.raw l) = l) {ds : Bytes}
    (hds : ds.all isCont = true) (l : Bytes) :
    (written (ds ++ l)).flatMap f = ds ++ (written l).flatMap f := by
  induction ds with
  | nil => rfl
  | cons d ds ih =>
    rw [all_cons, Bool.and_eq_true] at hds
    obtain ⟨hne, htail⟩ := ne_backslash_of_isCont hds.1
    have hnext : next d (ds ++ l) = (.raw [d], ds ++ l) := by
      unfold next
      rw [if_neg hne, htail, if_pos ⟨Nat.zero_le _, rfl⟩]
      rfl
    rw [cons_append, written_cons, hnext, flatMap_cons, hf, ih hds.2]
    rfl

/-- **How bytes are grouped does not matter** where each group stands for itself. -/
theorem written_raw {f : Written → Bytes} (hf : ∀ l, f (.raw l) = l) {c : UInt8}
    (hc : c ≠ backslash) (l : Bytes) :
    (written (c :: l)).flatMap f = c :: (written l).flatMap f := by
  rw [written_cons]
  unfold next
  rw [if_neg hc]
  split
  · next h =>
    have hsplit := written_conts hf h.2 (l.drop (tailLen c))
    rw [take_append_drop] at hsplit
    rw [flatMap_cons, hf, hsplit]
    rfl
  · rw [flatMap_cons, hf]
    rfl

/-- The text without its escapes, read with more turns than it has bytes. -/
theorem unescapeLoop_eq (n : ℕ) : ∀ l : Bytes, l.length ≤ n →
    unescapeLoop n l = (written l).flatMap Written.plain := by
  induction n with
  | zero =>
    intro l hl
    rw [eq_nil_of_length_eq_zero (Nat.le_zero.mp hl), written]
    rfl
  | succ n ih =>
    intro l hl
    cases l with
    | nil =>
      rw [written]
      rfl
    | cons c l =>
      rw [length_cons] at hl
      unfold unescapeLoop
      by_cases hc : c = backslash
      · rw [if_pos hc, written_cons]
        unfold next
        rw [if_pos hc]
        cases l with
        | nil =>
          dsimp only
          rw [written]
          rfl
        | cons e l =>
          rw [length_cons] at hl
          dsimp only
          split
          · have hlen := length_codePoint_le l
            rw [flatMap_cons, ih _ (by omega)]
            rfl
          · rw [flatMap_cons, ih _ (by omega)]
            rfl
      · rw [if_neg hc, written_raw (fun _ => rfl) hc, ih _ (by omega)]

/-- **Together they stand for the text without its escapes.** -/
theorem plain_written (l : Bytes) : (written l).flatMap Written.plain = unescape l :=
  (unescapeLoop_eq l.length l le_rfl).symm

end Hassmic.Json
