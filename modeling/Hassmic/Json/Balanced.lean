import Hassmic.Json.Written
import Hassmic.Json.Grammar

/-!
# Text in which every bracket is closed

Scanners that look for one place in a document do not parse it.  They pass strings by, count the
brackets that are open, and take everything else as it comes.  Of a value they need to know no more
than this: its strings end, and its brackets are closed.

## Main definitions

* `Raw` — what a scanner sees between two quotes.
* `Balanced` — text whose strings end and whose brackets are closed.
* `Shape` — what a value looks like to a scanner.

## Main results

* `Value.shape` — **a value is a string, a word, or balanced text in brackets**.
-/

namespace Hassmic.Json

open Byte List

/-- A bracket that opens. -/
def opens (c : UInt8) : Bool := c = lbrace || c = lbracket

/-- A bracket that closes. -/
def closes (c : UInt8) : Bool := c = rbrace || c = rbracket

/-- What stands between two quotes: characters, each behind a backslash or neither a quote nor a
backslash itself. -/
inductive Raw : Bytes → Prop
  | nil : Raw []
  | char {c : UInt8} {l : Bytes} (hq : c ≠ quote) (hb : c ≠ backslash) (h : Raw l) : Raw (c :: l)
  | pair {e : UInt8} {l : Bytes} (h : Raw l) : Raw (backslash :: e :: l)

/-- Text whose strings end and whose brackets are closed. -/
inductive Balanced : Bytes → Prop
  | nil : Balanced []
  | plain {c : UInt8} {l : Bytes} (ho : opens c = false) (hc : closes c = false) (hq : c ≠ quote)
      (h : Balanced l) : Balanced (c :: l)
  | string {k l : Bytes} (hk : Raw k) (h : Balanced l) : Balanced (quote :: (k ++ quote :: l))
  | nest {o c : UInt8} {l m : Bytes} (ho : opens o = true) (hc : closes c = true) (hl : Balanced l)
      (hm : Balanced m) : Balanced (o :: (l ++ c :: m))

theorem opens_quote {c : UInt8} (h : opens c = true) : c ≠ quote := by
  rintro rfl
  exact absurd h (by decide)

theorem closes_opens {c : UInt8} (h : closes c = true) : opens c = false ∧ c ≠ quote := by
  unfold closes at h
  rw [Bool.or_eq_true, decide_eq_true_eq, decide_eq_true_eq] at h
  rcases h with rfl | rfl
  · decide
  · decide

/-- Hexadecimal digits, white space, numbers and the three words have no brackets and no quotes in
them. -/
theorem bracket_facts : (∀ {c : UInt8}, isHex c = true → c ≠ quote ∧ c ≠ backslash) ∧
    (∀ c : UInt8, isWs c = true → opens c = false ∧ closes c = false ∧ c ≠ quote) ∧
    (∀ c : UInt8, isNumeral c = true → opens c = false ∧ closes c = false ∧ c ≠ quote) ∧
    (∀ c : UInt8, isDigit c = true ∨ c = minus → isNumeral c = true) ∧
    ∀ w ∈ words, ∀ c ∈ w.1, opens c = false ∧ closes c = false ∧ c ≠ quote := by
  decide +kernel

theorem isHex_plain {c : UInt8} (h : isHex c = true) : c ≠ quote ∧ c ≠ backslash :=
  bracket_facts.1 h

theorem Chars.raw {esc : UInt8 → Bool} {k : Bytes} (h : Chars esc k) : Raw k := by
  induction h with
  | nil => exact .nil
  | unescaped _ hq hb _ ih => exact .char hq hb ih
  | escaped _ _ _ ih => exact .pair ih
  | unicode hx _ ih =>
    simp only [Bool.and_eq_true] at hx
    obtain ⟨⟨⟨ha, hb⟩, hc⟩, hd⟩ := hx
    refine .pair (.char (isHex_plain ha).1 (isHex_plain ha).2 ?_)
    refine .char (isHex_plain hb).1 (isHex_plain hb).2 ?_
    refine .char (isHex_plain hc).1 (isHex_plain hc).2 ?_
    exact .char (isHex_plain hd).1 (isHex_plain hd).2 ih

namespace Balanced

variable {l m : Bytes}

theorem append (hl : Balanced l) (hm : Balanced m) : Balanced (l ++ m) := by
  induction hl with
  | nil => exact hm
  | plain ho hc hq _ ih => exact .plain ho hc hq ih
  | string hk _ ih =>
    rw [cons_append, append_assoc, cons_append]
    exact .string hk ih
  | nest ho hc hl _ _ ih =>
    rw [cons_append, append_assoc, cons_append]
    exact .nest ho hc hl ih

/-- Bytes that are neither brackets nor quotes. -/
theorem of_plain (h : ∀ c ∈ l, opens c = false ∧ closes c = false ∧ c ≠ quote) : Balanced l := by
  induction l with
  | nil => exact .nil
  | cons c l ih =>
    obtain ⟨ho, hc, hq⟩ := h c mem_cons_self
    exact .plain ho hc hq (ih fun x hx => h x (mem_cons_of_mem c hx))

theorem of_ws (h : Ws l) : Balanced l := by
  obtain ⟨-, hws, -⟩ := bracket_facts
  exact of_plain fun c hc => hws c (h c hc)

/-- The items of a list. -/
theorem of_list1 {Item : ℕ → Bytes → Prop} (hitem : ∀ {n l}, Item n l → Balanced l) {n : ℕ}
    (h : List1 Item n l) : Balanced l := by
  induction h with
  | one ha hl hb => exact ((of_ws ha).append (hitem hl)).append (of_ws hb)
  | more ha hl hb _ ih =>
    exact (((of_ws ha).append (hitem hl)).append (of_ws hb)).append (.plain rfl rfl (by decide) ih)

/-- A member. -/
theorem of_member {V : ℕ → Bytes → Prop} (hV : ∀ {n l}, V n l → Balanced l) {n : ℕ}
    (h : Member V n l) :
    Balanced l := by
  cases h with
  | @mk k a b l n hk ha hb hl =>
    have hvalue : Balanced (colon :: (b ++ l)) :=
      .plain rfl rfl (by decide) ((of_ws hb).append (hV hl))
    have hall := Balanced.string hk.raw ((of_ws ha).append hvalue)
    simpa only [append_assoc, cons_append] using hall

end Balanced

/-- A value as a scanner sees it: a string, a word, or balanced text in brackets. -/
inductive Shape : Bytes → Prop
  | string {k : Bytes} (hk : Raw k) : Shape (quote :: (k ++ [quote]))
  | word {l : Bytes} (hl : ∀ c ∈ l, opens c = false ∧ closes c = false ∧ c ≠ quote) : Shape l
  | nest {o c : UInt8} {l : Bytes} (ho : opens o = true) (hc : closes c = true) (hl : Balanced l) :
      Shape (o :: (l ++ [c]))

theorem Shape.balanced {l : Bytes} (h : Shape l) : Balanced l := by
  cases h with
  | string hk => exact .string hk .nil
  | word hl => exact .of_plain hl
  | nest ho hc hl => exact .nest ho hc hl .nil

theorem ValueOf.shape {V : ℕ → Bytes → Prop} (hV : ∀ {n l}, V n l → Balanced l) {n : ℕ} {l : Bytes}
    (h : ValueOf V n l) : Shape l := by
  cases h with
  | string hk => exact .string hk.raw
  | @number c l hc hl =>
    obtain ⟨-, -, hnumeral, hfirst, -⟩ := bracket_facts
    refine .word ?_
    intro e he
    rcases mem_cons.mp he with rfl | he
    · exact hnumeral _ (hfirst _ hc)
    · exact hnumeral e (hl e he)
  | literal hw =>
    obtain ⟨-, -, -, -, hplain⟩ := bracket_facts
    exact .word (hplain _ hw)
  | emptyArray ha => exact .nest rfl rfl (.of_ws ha)
  | array hl => exact .nest rfl rfl (.of_list1 hV hl)
  | emptyObject ha => exact .nest rfl rfl (.of_ws ha)
  | object hl => exact .nest rfl rfl (.of_list1 (.of_member hV) hl)

/-- **A value is a string, a word, or balanced text in brackets.** -/
theorem Value.shape {d : ℕ} : ∀ {n : ℕ} {l : Bytes}, Value d n l → Shape l := by
  induction d with
  | zero => exact fun h => ValueOf.shape (fun hno => hno.elim) h
  | succ d ih => exact fun h => ValueOf.shape (fun hv => (ih hv).balanced) h

end Hassmic.Json
