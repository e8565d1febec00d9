import Hassmic.Lib.Text
import Hassmic.Arb.StateFile

/-!
# Looking things up in a Sendspin message

The messages of a Sendspin session are JSON, but the Echo does not parse them: it looks
for a key as a piece of text, takes what follows the colon, and asks whether a word occurs
in it.  What these lookups find is all that counts of a message, also of one that is no
JSON at all.

## Main definitions

* `occurs` — `strstr`.
* `jsValue` — what follows a key.
* `jsStr`, `jsI64`, `jsSection` — a string, a number, and the text of an array or an object.

## Main results

* `occurs_of_infix` — a word that occurs brings its parts along.
-/

namespace Hassmic.Sendspin

open Byte Text

/-- The bytes of a text. -/
def txt (s : String) : Bytes := Arb.ascii s.toList

/-- `strstr(l, w) != NULL`. -/
def occurs (w l : Bytes) : Bool := (strstr w l).isSome

theorem occurs_iff (w l : Bytes) : occurs w l = true ↔ w <:+: l := by
  rw [occurs, Option.isSome_iff_ne_none, ne_eq, strstr_eq_none_iff, not_not]

/-- What occurs in a word that occurs does so itself. -/
theorem occurs_of_infix {w v l : Bytes} (hv : v <:+: w) (h : occurs w l = true) :
    occurs v l = true := by
  rw [occurs_iff] at h ⊢
  exact hv.trans h

/-- A key as it is looked for, in quotes. -/
def quoted (key : Bytes) : Bytes := quote :: (key ++ [quote])

/-- What follows the first `"key" :`; a key that no colon follows is passed by, `k`
characters of it still to go. -/
def jsScan (pat : Bytes) : ℕ → Bytes → Option Bytes
  | _, [] => none
  | k + 1, _ :: l => jsScan pat k l
  | 0, c :: l =>
      if pat <+: c :: l then
        match ((c :: l).drop pat.length).dropWhile (· == space) with
        | [] => none
        | d :: v =>
            if d = colon then some (v.dropWhile (· == space)) else jsScan pat (pat.length - 1) l
      else jsScan pat 0 l

/-- The value of a key. -/
def jsValue (j key : Bytes) : Option Bytes := jsScan (quoted key) 0 j

/-- The characters of a string, at most `n`, each after a backslash as it stands. -/
def jsCopy : ℕ → Bytes → Bytes
  | 0, _ => []
  | _ + 1, [] => []
  | n + 1, c :: l =>
      if c = quote then []
      else if c = backslash then
        match l with
        | [] => [c]
        | d :: l => d :: jsCopy n l
      else c :: jsCopy n l

/-- `js_str`, into a buffer of `size` bytes. -/
def jsStr (size : ℕ) (j key : Bytes) : Option Bytes :=
  match jsValue j key with
  | some (c :: l) => if c = quote then some (jsCopy (size - 1) l) else none
  | _ => none

/-- `js_i64`. -/
def jsI64 (j key : Bytes) : Option ℤ :=
  match jsValue j key with
  | none => none
  | some v =>
      if txt "true" <+: v then some 1
      else if txt "false" <+: v then some 0
      else (integer 10 v).map fun r =>
        max (-0x8000000000000000) (min 0x7fffffffffffffff (if r.1 then -(r.2.1 : ℤ) else r.2.1))

/-- The text up to the bracket that closes the first one, with brackets in strings passed
by.  `str`: in a string; `depth`: brackets that are open. -/
def sectionText : Bool → ℕ → Bytes → Bytes
  | _, _, [] => []
  | true, depth, c :: l =>
      if c = backslash then
        match l with
        | [] => [c]
        | d :: l => c :: d :: sectionText true depth l
      else c :: sectionText (c ≠ quote) depth l
  | false, depth, c :: l =>
      if c = quote then c :: sectionText true depth l
      else if c = lbracket ∨ c = lbrace then c :: sectionText false (depth + 1) l
      else if c = rbracket ∨ c = rbrace then
        if depth ≤ 1 then [c] else c :: sectionText false (depth - 1) l
      else c :: sectionText false depth l

/-- `js_section`, into a buffer of `size` bytes. -/
def jsSection (size : ℕ) (j key : Bytes) : Option Bytes :=
  match jsValue j key with
  | some (c :: l) =>
      if c = lbracket ∨ c = lbrace then some ((sectionText false 0 (c :: l)).take (size - 1))
      else none
  | _ => none

end Hassmic.Sendspin
