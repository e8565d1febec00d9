import Hassmic.Lib.Text
import Hassmic.Json.Balanced

/-!
# Looking for updates

GitHub's answer to a look is a release, or on the beta channel a list of them.  Of a release three
fields are read, by scanning its text for their names; of a list each element, and the highest
version is taken.  Versions are the time of a commit, so they are all of one width and compare as
texts.

A string of C ends at its first NUL, and each field goes into a buffer.

## Main definitions

* `jsonString`, `jsonGet`, `jsonItem` — the scanners.
* `tagVersion`, `versionOk` — tags.
* `look` — what a look finds, or what it says instead.
-/

namespace Hassmic.Update

open Byte Text Json

/-- `UPDATE_OFF`, `UPDATE_BETA`, `UPDATE_RELEASE`. -/
inductive Channel
  | off
  | beta
  | release
  deriving DecidableEq

/-! ### The fields of an answer -/

/-- The digit of an escape, whatever the character. -/
def escapeDigit (c : UInt8) : ℕ :=
  if isDigit c then c.toNat - 0x30 else ((((lower c).toNat : ℤ) - 0x61 + 10) % 16).toNat

/-- The character of an escape with four digits; half of a surrogate pair is none. -/
def escapeUnit (l : Bytes) : Bytes :=
  let u := (l.take 4).foldl (fun u c => 16 * u + escapeDigit c) 0
  utf8 (if 0xd800 ≤ u ∧ u < 0xe000 then 0xfffd else u)

/-- The character of an escape with one letter. -/
def escapeLetter (e : UInt8) : UInt8 :=
  if e = 0x6e then lf else if e = 0x74 then tab else if e = 0x72 then cr
  else if e = 0x62 ∨ e = 0x66 then space else e

/-- A character is placed if it fits, and nothing behind one that did not. -/
def place (cap : ℕ) (out : Bytes × Bool) (c : Bytes) : Bytes × Bool :=
  if !out.2 && out.1.length + c.length < cap then (out.1 ++ c, false) else (out.1, true)

/-- The loop of `json_string`: `seq` is the byte sequence that is being read, `out` what was placed
and whether anything did not fit. -/
def stringLoop (cap : ℕ) : Bytes → Bytes × Bool → Bytes → Option Bytes
  | _, _, [] => none
  | seq, out, c :: l =>
      if seq ≠ [] ∧ isCont c ∧ seq.length < 4 then stringLoop cap (seq ++ [c]) out l
      else
        let out := if seq = [] then out else place cap out seq
        if c = quote then some out.1
        else if c = backslash then
          match l with
          | [] => none
          | e :: l =>
              if e = 0x75 then
                match l with
                | a :: b :: c :: d :: l =>
                  stringLoop cap [] (place cap out (escapeUnit [a, b, c, d])) l
                | _ => none
              else stringLoop cap [] (place cap out [escapeLetter e]) l
        else if 0xc0 ≤ c then stringLoop cap [c] out l
        else stringLoop cap [] (place cap out [c]) l

/-- `json_string`, behind the opening quote, into a buffer of `cap` bytes, which is read as a string
of C. -/
def jsonString (cap : ℕ) (l : Bytes) : Option Bytes :=
  (stringLoop cap [] ([], false) l).map (·.takeWhile (· ≠ nul))

/-- What stands behind the colon of a field. -/
def fieldValue (cap : ℕ) (l : Bytes) : Option Bytes :=
  match l.dropWhile isSpace with
  | [] => none
  | c :: v =>
      if c = quote then jsonString cap v
      else
        let out :=
          ((c :: v).takeWhile fun c =>
            !strchr [comma, rbrace, rbracket, space, tab, cr, lf] c).take (cap - 1)
        if out = [] then none else some out

/-- The loop of `json_get`: `str` is what was read of the string that is at hand, `depth` counts the
brackets that are open. -/
def getLoop (key : Bytes) (cap : ℕ) : Option Bytes → ℕ → Bytes → Option Bytes
  | _, _, [] => none
  | some k, depth, c :: l =>
      if c = quote then
        match l.dropWhile isSpace with
        | [] => getLoop key cap none depth l
        | d :: v =>
          if depth = 1 ∧ d = colon ∧ k = key then fieldValue cap v else getLoop key cap none depth l
      else if c = backslash then
        match l with
        | [] => none
        | e :: l => getLoop key cap (some (k ++ [c, e])) depth l
      else getLoop key cap (some (k ++ [c])) depth l
  | none, depth, c :: l =>
      if opens c then getLoop key cap none (depth + 1) l
      else if closes c then if depth = 1 then none else getLoop key cap none (depth - 1) l
      else if c = quote then getLoop key cap (some []) depth l
      else getLoop key cap none depth l

/-- `json_get`: a field of the object, or of the first of an array of them. -/
def jsonGet (l key : Bytes) (cap : ℕ) : Option Bytes :=
  let l := l.dropWhile isSpace
  let l := (if l.head? = some lbracket then l.tail else l).dropWhile isSpace
  if l.head? = some lbrace then getLoop key cap none 0 l else none

/-- The loop of `json_item`: whether a string is at hand, the brackets that are open, how many
objects have begun, and the text from the one that is looked for on. -/
def itemLoop (i : ℕ) : Bool → ℕ → ℕ → Bytes → Bytes → Option Bytes
  | _, _, _, _, [] => none
  | true, depth, n, s, c :: l =>
      if c = quote then itemLoop i false depth n s l
      else if c = backslash then
        match l with
        | [] => none
        | _ :: l => itemLoop i true depth n s l
      else itemLoop i true depth n s l
  | false, depth, n, s, c :: l =>
      if c = quote then itemLoop i true depth n s l
      else if opens c then
        if depth + 1 = 2 ∧ c = lbrace then
          itemLoop i false (depth + 1) (n + 1) (if n = i then c :: l else s) l
        else itemLoop i false (depth + 1) n s l
      else if closes c then
        if depth - 1 = 1 ∧ n = i + 1 ∧ c = rbrace then some (s.take (s.length - l.length))
        else if depth ≤ 1 then none
        else itemLoop i false (depth - 1) n s l
      else itemLoop i false depth n s l

/-- `json_item`: the text of an element of an array of objects. -/
def jsonItem (l : Bytes) (i : ℕ) : Option Bytes :=
  let l := l.dropWhile isSpace
  if l.head? = some lbracket then itemLoop i false 0 0 [] l else none

/-! ### Tags -/

/-- A `-beta` at the end is cut off, if it is the first. -/
def cutBeta : Bytes → Bytes
  | [] => []
  | c :: l =>
      if text "-beta" <+: c :: l then if l.length = 4 then [] else c :: l
      else c :: cutBeta l

/-- `tag_version`, into a buffer of `cap` bytes. -/
def tagVersion (t : Bytes) (cap : ℕ) : Bytes :=
  cutBeta ((if t.head? = some 0x76 then t.tail else t).take (cap - 1))

/-- `version_ok`. -/
def versionOk (v : Bytes) : Bool :=
  v ≠ [] && v.length ≤ 60 && v.all fun c => alnum c || (text ".+_-").contains c

/-! ### A look -/

/-- What a look finds: the tag, its version, the page of the release, and its notes cut short. -/
structure Found where
  tag : Bytes
  latest : Bytes
  url : Bytes
  summary : Bytes
  deriving DecidableEq

/-- `set_failed`, what it says. -/
def failed (why : Bytes) : Bytes := (text "could not look for updates: " ++ why.take 200).take 255

/-- Where notes are cut: at a character, not inside one. -/
def cutAt (notes : Bytes) : ℕ → ℕ
  | 0 => 0
  | n + 1 => if isCont (notes.getD (n + 1) 0) then cutAt notes n else n + 1

/-- The notes, cut short. -/
def summaryOf (notes : Bytes) : Bytes :=
  if 256 ≤ notes.length then notes.take (cutAt notes 252) ++ text "..." else notes

/-- The version of an element of the list: none if it has no tag, or a tag that could not go into an
URL. -/
def elementVersion (e : Bytes) : Option Bytes :=
  match jsonGet e (text "tag_name") 64 with
  | none => none
  | some t => if versionOk t then some (tagVersion t 64) else none

/-- An element replaces the best one so far. -/
def better (v best : Bytes) : Bool := if v.length = best.length then before best v else best = []

/-- The loop over the list, in at most so many turns: the best version so far, and its element.  The
outer `none` says that the loop did not end. -/
def lookLoop (b : Bytes) : ℕ → ℕ → Bytes × Option Bytes → Option (Option Bytes)
  | 0, _, _ => none
  | f + 1, i, best =>
      match jsonItem b i with
      | none => some best.2
      | some e =>
          match elementVersion e with
          | none => lookLoop b f (i + 1) best
          | some v => lookLoop b f (i + 1) (if better v best.1 then (v, some e) else best)

/-- What is read of a release. -/
def readRelease (ch : Channel) (rs : Option Bytes) : Except Bytes Found :=
  match rs.bind fun e => (jsonGet e (text "tag_name") 64).map (e, ·) with
  | none =>
    .error (failed
      (text (if ch = .beta then "nothing published yet" else "unexpected answer from GitHub")))
  | some (e, t) =>
      if versionOk t then
        .ok {
          tag := t
          latest := tagVersion t 64
          url := (jsonGet e (text "html_url") 192).getD []
          summary := summaryOf (((jsonGet e (text "body") 1024).getD []).dropWhile isSpace) }
      else .error (failed (text "a release with an unexpected tag"))

/-- `look` on a channel, from what the fetch gave: why it failed, or the answer. -/
def look (ch : Channel) (answer : Except Bytes Bytes) : Option (Except Bytes Found) :=
  match answer with
  | .error err =>
      some (.error (failed (if text "HTTP 404" <:+: err ∧ ch = .release then
        text "no release published yet" else err)))
  | .ok b =>
      if ch = .beta then (lookLoop b (b.length + 1) 0 ([], none)).map (readRelease ch)
      else some (readRelease ch (some b))

end Hassmic.Update
