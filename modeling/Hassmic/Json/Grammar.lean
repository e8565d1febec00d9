import Hassmic.Json.Parse

/-!
# The grammar of a JSON document

The productions of RFC 8259 over bytes, with the two limits of the reader: how
deep values may nest, and how many of them (and of the names of members) there
may be.  A number is loosened to a digit or a minus sign followed by any of the
characters of a number; a byte from `0x80` on may stand in a string as it is,
whether or not it belongs to a UTF-8 sequence.

The productions of a value refer to those of the values it holds through a
parameter, so that the bound on the nesting is the recursion of `Value`.

## Main definitions

* `Chars`, `Member`, `List1` — strings, members, and lists of one item or more.
* `ValueOf`, `Value` — values; `Value d n l` says that `l` is a value that holds
  values at most `d` levels deep, made of `n` tokens.
* `Text` — a value with white space around it, within both limits.
-/

namespace Hassmic.Json

open Byte

/-- `ws`: any number of spaces, tabs, line feeds and carriage returns. -/
def Ws (l : Bytes) : Prop := ∀ c ∈ l, isWs c

/-- What stands between the quotes of a string; `esc` are the characters that may
follow a backslash by themselves. -/
inductive Chars (esc : UInt8 → Bool) : Bytes → Prop
  | nil : Chars esc []
  | unescaped {c : UInt8} {l : Bytes} (hlow : ¬ c < 0x20) (hq : c ≠ quote) (hb : c ≠ backslash)
      (h : Chars esc l) : Chars esc (c :: l)
  | escaped {e : UInt8} {l : Bytes} (hu : e ≠ 0x75) (he : esc e) (h : Chars esc l) :
      Chars esc (backslash :: e :: l)
  | unicode {a b c d : UInt8} {l : Bytes} (hx : (isHex a && isHex b && isHex c && isHex d) = true)
      (h : Chars esc l) : Chars esc (backslash :: 0x75 :: a :: b :: c :: d :: l)

/-- The escapes of the grammar. -/
def isEscape (c : UInt8) : Bool := escapes.contains c

/-- The characters of a number. -/
def isNumeral (c : UInt8) : Bool := numerals.contains c

/-- `item *( value-separator item )`, with white space around each item; the
number counts the tokens. -/
inductive List1 (Item : ℕ → Bytes → Prop) : ℕ → Bytes → Prop
  | one {a l b : Bytes} {n : ℕ} (ha : Ws a) (hl : Item n l) (hb : Ws b) :
      List1 Item n (a ++ l ++ b)
  | more {a l b r : Bytes} {n m : ℕ} (ha : Ws a) (hl : Item n l) (hb : Ws b)
      (hr : List1 Item m r) : List1 Item (n + m) (a ++ l ++ b ++ comma :: r)

/-- `member = string name-separator value`. -/
inductive Member (V : ℕ → Bytes → Prop) : ℕ → Bytes → Prop
  | mk {k a b l : Bytes} {n : ℕ} (hk : Chars isEscape k) (ha : Ws a) (hb : Ws b) (hl : V n l) :
      Member V (n + 1) (quote :: k ++ quote :: a ++ colon :: b ++ l)

/-- The productions of a value; `V` are the values it may hold. -/
inductive ValueOf (V : ℕ → Bytes → Prop) : ℕ → Bytes → Prop
  | string {k : Bytes} (hk : Chars isEscape k) : ValueOf V 1 (quote :: k ++ [quote])
  | number {c : UInt8} {l : Bytes} (hc : isDigit c ∨ c = minus) (hl : ∀ e ∈ l, isNumeral e) :
      ValueOf V 1 (c :: l)
  | literal {w : Bytes} {type : JType} (hw : (w, type) ∈ words) : ValueOf V 1 w
  | emptyArray {a : Bytes} (ha : Ws a) : ValueOf V 1 (lbracket :: a ++ [rbracket])
  | array {l : Bytes} {n : ℕ} (hl : List1 V n l) : ValueOf V (n + 1) (lbracket :: l ++ [rbracket])
  | emptyObject {a : Bytes} (ha : Ws a) : ValueOf V 1 (lbrace :: a ++ [rbrace])
  | object {l : Bytes} {n : ℕ} (hl : List1 (Member V) n l) :
      ValueOf V (n + 1) (lbrace :: l ++ [rbrace])

/-- A value that holds values at most `d` levels deep. -/
def Value : ℕ → ℕ → Bytes → Prop
  | 0 => ValueOf fun _ _ => False
  | d + 1 => ValueOf (Value d)

/-- `JSON-text = ws value ws`, within the limits. -/
def Text (l : Bytes) : Prop :=
  ∃ a v b n, l = a ++ v ++ b ∧ Ws a ∧ Ws b ∧ Value jsonDepth n v ∧ n ≤ jsonMaxTokens

end Hassmic.Json
