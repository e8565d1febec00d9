import Hassmic.Lib.Double
import Hassmic.Arb.Interface

/-!
# Kiosk claims, received

How a claim of a Kiosk Satellite is read: a JSON object of plain values, of which six are looked at.
Strings of JSON are read into buffers of a fixed size, and one that does not fit makes the datagram
none.

## Main definitions

* `jstring` — a JSON string, read into a buffer.
* `kioskParse` — a claim.
* `escChar` — a character as the sender escapes it.

## Main results

* `jstring_esc` — **what was escaped is read as it was**.
* `foldl_escStep` — the sender's buffer holds every phrase.
-/

namespace Hassmic.Arb

open Wire Byte Text List Option

/-! ### Strings -/

/-- A string of C, up to its end. -/
def cstr (l : Bytes) : Bytes := l.takeWhile (· ≠ nul)

/-- `jws`. -/
def jws (l : Bytes) : Bytes := l.dropWhile isSpace

/-- A unit of UTF-16 as UTF-8. -/
def unitBytes (c : ℕ) : Bytes :=
  if c < 0x80 then [c.toUInt8]
  else if c < 0x800 then [(0xc0 + c / 64).toUInt8, (0x80 + c % 64).toUInt8]
  else [(0xe0 + c / 4096).toUInt8, (0x80 + c / 64 % 64).toUInt8, (0x80 + c % 64).toUInt8]

/-- Four hexadecimal digits. -/
def hex4 (l : Bytes) : Option (ℕ × Bytes) :=
  if 4 ≤ l.length ∧ (l.take 4).all (fun c => value c < 16) then
    some (ofDigits 16 (l.take 4), l.drop 4)
  else none

/-- What stands behind a backslash. -/
def escaped : Bytes → Option (Bytes × Bytes)
  | [] => none
  | c :: l =>
      if c = quote ∨ c = backslash ∨ c = slash then some ([c], l)
      else if c = 0x62 then some ([0x08], l)
      else if c = 0x66 then some ([0x0c], l)
      else if c = 0x6e then some ([lf], l)
      else if c = 0x72 then some ([cr], l)
      else if c = 0x74 then some ([tab], l)
      else if c = 0x75 then (hex4 l).map fun r => (unitBytes r.1, r.2)
      else none

/-- One character of a string: its bytes, and the rest. -/
def jchar : Bytes → Option (Bytes × Bytes)
  | [] => none
  | c :: l => if c < 0x20 then none else if c = backslash then escaped l else some ([c], l)

/-- The characters of a string, at most `k`, behind those read. -/
def jloop (cap : ℕ) : ℕ → Bytes → Bytes → Option (Bytes × Bytes)
  | 0, _, _ => none
  | k + 1, out, l =>
      if l.head? = some quote then some (out, l.drop 1)
      else
        match jchar l with
        | none => none
        | some r => if cap ≤ out.length + r.1.length then none else jloop cap k (out ++ r.1) r.2

/-- `jstring`: the string behind an opening quote, and what follows it; none if it does not fit. -/
def jstring (cap : ℕ) (l : Bytes) : Option (Bytes × Bytes) := jloop cap (l.length + 1) [] l

/-! ### Claims -/

/-- The keys of a claim. -/
inductive Field
  | ks
  | v
  | id
  | n
  | p
  | e
  | other
  deriving DecidableEq

/-- The key that a string is. -/
def fieldOf (key : Bytes) : Field :=
  if key = ascii ['k', 's'] then .ks
  else if key = ascii ['v'] then .v
  else if key = ascii ['i', 'd'] then .id
  else if key = ascii ['n'] then .n
  else if key = ascii ['p'] then .p
  else if key = ascii ['e'] then .e
  else .other

/-- The buffer for the string of a key. -/
def Field.cap : Field → ℕ
  | .ks => 8
  | .id => 65
  | _ => 128

/-- What was read of a claim. -/
structure Seen where
  ks : Option Bytes := none
  v : Bool := false
  id : Option Bytes := none
  n : Option ℤ := none
  p : Option Bytes := none
  e : Option Double := none

/-- The key was met. -/
def Seen.has (s : Seen) : Field → Bool
  | .ks => s.ks.isSome
  | .v => s.v
  | .id => s.id.isSome
  | .n => s.n.isSome
  | .p => s.p.isSome
  | .e => s.e.isSome
  | .other => false

/-- A string under a key. -/
def kioskString (f : Field) (s : Seen) (l : Bytes) : Option (Seen × Bytes) :=
  match f with
  | .v | .n | .e => none
  | .ks => (jstring f.cap l).map fun r => ({ s with ks := some r.1 }, r.2)
  | .id => (jstring f.cap l).map fun r => ({ s with id := some r.1 }, r.2)
  | .p => (jstring f.cap l).map fun r => ({ s with p := some r.1 }, r.2)
  | .other => (jstring f.cap l).map fun r => (s, r.2)

/-- `true`, `false` and `null`, under keys of no interest. -/
def kioskWord (f : Field) (s : Seen) (l : Bytes) : Option (Seen × Bytes) :=
  let n := if ascii ['t', 'r', 'u', 'e'] <+: l ∨ ascii ['n', 'u', 'l', 'l'] <+: l then 4
    else if ascii ['f', 'a', 'l', 's', 'e'] <+: l then 5 else 0
  if n = 0 ∨ f ≠ .other then none else some (s, l.drop n)

/-- The size of a number is above that of an integer. -/
def tooLarge : Double → Bool
  | .fin x => decide (9 * 10 ^ 15 < |x|)
  | .inf _ => true
  | .nan => false

/-- The whole part; nothing is said of what is no number. -/
def wholePart : Double → ℤ
  | .fin x => if x < 0 then -⌊-x⌋ else ⌊x⌋
  | _ => 0

/-- A number under a key. -/
def kioskNumber (f : Field) (s : Seen) (l : Bytes) : Option (Seen × Bytes) :=
  match Double.strtod l with
  | none => kioskWord f s l
  | some (d, r) =>
      let whole := (l.take (l.length - r.length)).all fun c => c ≠ dot ∧ c ≠ 0x65 ∧ c ≠ 0x45
      match f with
      | .ks | .id | .p => none
      | .v => if !whole ∨ tooLarge d ∨ d ≠ .fin 1 then none else some ({ s with v := true }, r)
      | .n => if !whole ∨ tooLarge d then none else some ({ s with n := some (wholePart d) }, r)
      | .e => some ({ s with e := some d }, r)
      | .other => some (s, r)

/-- A value under a key. -/
def kioskValue (f : Field) (s : Seen) (l : Bytes) : Option (Seen × Bytes) :=
  if s.has f then none
  else if l.head? = some quote then kioskString f s (l.drop 1) else kioskNumber f s l

/-- A key and its value, behind the opening quote of the key. -/
def kioskMember (s : Seen) (l : Bytes) : Option (Seen × Bytes) := do
  let key ← jstring 16 l
  let r ← literal [colon] (jws key.2)
  kioskValue (fieldOf (cstr key.1)) s (jws r)

/-- The members of an object, at most `k`. -/
def kioskLoop : ℕ → Seen → Bytes → Option Seen
  | 0, _, _ => none
  | k + 1, s, l =>
      if l.head? = some rbrace then some s
      else
        match (literal [quote] l).bind (kioskMember s) with
        | none => none
        | some (s, r) =>
            match jws r with
            | [] => none
            | c :: l =>
                if c = comma then kioskLoop k s (jws l) else if c = rbrace then some s else none

/-- What was read is a claim. -/
def Seen.claim (s : Seen) : Option KClaim := do
  let ks ← s.ks
  let id ← s.id
  let n ← s.n
  let p ← s.p
  let e ← s.e
  match e with
  | .fin x =>
      if s.v ∧ cstr ks = ascii ['w', 'a', 'k', 'e'] ∧ cstr id ≠ [] ∧ |x| ≤ 10 ^ 6 then
        some {
          id := cstr id, n := n, p := St.kioskPhrase (cstr p)
          e := Double.lround (Double.round (x * 10)) }
      else none
  | _ => none

/-- **`kiosk_parse`**: the claim that a datagram is. -/
def kioskParse (t : Bytes) : Option KClaim :=
  (literal [lbrace] (jws t)).bind fun l => (kioskLoop (l.length + 1) {} (jws l)).bind Seen.claim

/-! ### What was escaped -/

/-- A character of a phrase as JSON. -/
def escChar (c : UInt8) : Bytes :=
  if c = quote ∨ c = backslash then [backslash, c]
  else if c < 0x20 then [backslash, 0x75] ++ pad 4 (numeral 16 c.toNat)
  else [c]

theorem length_pad {n : ℕ} (hn : n < 16 ^ 4) : (pad 4 (numeral 16 n)).length = 4 := by
  have hnum : (numeral 16 n).length ≤ 4 := length_numeral_le (by omega) (by omega) hn
  rw [pad, length_append, length_replicate]
  omega

theorem length_escChar_le (c : UInt8) : 1 ≤ (escChar c).length ∧ (escChar c).length ≤ 6 := by
  have hc := c.toNat_lt
  unfold escChar
  split
  · rw [length_cons, length_singleton]
    omega
  · split
    · rw [length_append, length_pad (by omega), length_cons, length_singleton]
      omega
    · rw [length_singleton]
      omega

/-- **The sender's buffer holds every phrase.** -/
theorem foldl_escStep (ph : Bytes) : ∀ out : Bytes, out.length + 6 * ph.length ≤ 378 →
    ph.foldl St.escStep out = out ++ ph.flatMap escChar := by
  induction ph with
  | nil =>
    intro out _
    exact (append_nil out).symm
  | cons c ph ih =>
    intro out hlen
    rw [length_cons] at hlen
    have hstep : St.escStep out c = out ++ escChar c := by
      unfold St.escStep escChar
      rw [if_neg (by omega)]
      split
      · rfl
      · split
        · rw [append_assoc]
        · rfl
    have hchar := (length_escChar_le c).2
    rw [foldl_cons, hstep, ih _ (by rw [length_append]; omega), flatMap_cons,
      append_assoc]

theorem hex4_pad {n : ℕ} (hn : n < 16 ^ 4) (l : Bytes) :
    hex4 (pad 4 (numeral 16 n) ++ l) = some (n, l) := by
  have hlen := length_pad hn
  have htake : (pad 4 (numeral 16 n) ++ l).take 4 = pad 4 (numeral 16 n) := by
    have h := @take_left _ (pad 4 (numeral 16 n)) l
    rwa [hlen] at h
  have hdrop : (pad 4 (numeral 16 n) ++ l).drop 4 = l := by
    have h := @drop_left _ (pad 4 (numeral 16 n)) l
    rwa [hlen] at h
  have hvalues : (pad 4 (numeral 16 n)).all (fun c => value c < 16) = true := by
    rw [List.all_eq_true]
    exact fun c hc => decide_eq_true (value_pad (by omega) le_rfl 4 n c hc)
  unfold hex4
  rw [htake, hdrop, if_pos ⟨by rw [length_append, hlen]; omega, hvalues⟩,
    ofDigits_pad (by omega) le_rfl]

/-- One character is read as it was. -/
theorem jchar_escChar (c : UInt8) (l : Bytes) :
    jchar (escChar c ++ l) = some ([c], l) ∧ (escChar c ++ l).head? ≠ some quote := by
  unfold escChar
  by_cases hquote : c = quote ∨ c = backslash
  · rw [if_pos hquote]
    refine ⟨?_, fun h => absurd (some.inj h) (by decide)⟩
    have hjchar : jchar ([backslash, c] ++ l) = escaped (c :: l) := rfl
    rw [hjchar]
    unfold escaped
    exact if_pos (hquote.elim .inl fun h => .inr (.inl h))
  · rw [if_neg hquote]
    by_cases hcontrol : c < 0x20
    · rw [if_pos hcontrol]
      refine ⟨?_, fun h => absurd (some.inj h) (by decide)⟩
      have hlt : c.toNat < 0x20 := UInt8.lt_iff_toNat_lt.mp hcontrol
      have hjchar : jchar ([backslash, 0x75] ++ pad 4 (numeral 16 c.toNat) ++ l) =
          (hex4 (pad 4 (numeral 16 c.toNat) ++ l)).map fun r => (unitBytes r.1, r.2) := rfl
      rw [hjchar, hex4_pad (by omega), map_some]
      unfold unitBytes
      dsimp only
      rw [if_pos (by omega)]
      exact congrArg (fun d => some ([d], l)) UInt8.ofNat_toNat
    · rw [if_neg hcontrol]
      refine ⟨?_, fun h => hquote (.inl (some.inj h))⟩
      show jchar (c :: l) = some ([c], l)
      unfold jchar
      dsimp only
      rw [if_neg hcontrol, if_neg fun h => hquote (.inr h)]

/-- **What was escaped is read as it was**, if it fits. -/
theorem jloop_esc {cap : ℕ} (w l : Bytes) : ∀ (k : ℕ) (out : Bytes), w.length < k →
    out.length + w.length < cap →
    jloop cap k out (w.flatMap escChar ++ quote :: l) = some (out ++ w, l) := by
  induction w with
  | nil =>
    intro k out hk _
    obtain ⟨k, rfl⟩ : ∃ m, k = m + 1 := ⟨k - 1, by omega⟩
    rw [append_nil]
    exact if_pos rfl
  | cons c w ih =>
    intro k out hk hcap
    rw [length_cons] at hk hcap
    obtain ⟨k, rfl⟩ : ∃ m, k = m + 1 := ⟨k - 1, by omega⟩
    obtain ⟨hchar, hhead⟩ := jchar_escChar c (w.flatMap escChar ++ quote :: l)
    rw [flatMap_cons, append_assoc, jloop, if_neg hhead, hchar]
    dsimp only
    rw [length_singleton, if_neg (by omega), ih k (out ++ [c]) (by omega)
      (by rw [length_append, length_singleton]; omega), append_assoc, singleton_append]

theorem jstring_esc {cap : ℕ} {w : Bytes} (l : Bytes) (hcap : w.length < cap) :
    jstring cap (w.flatMap escChar ++ quote :: l) = some (w, l) := by
  have hlen : w.length ≤ (w.flatMap escChar).length := by
    clear hcap
    induction w with
    | nil => exact le_rfl
    | cons c w ih =>
      have hchar := (length_escChar_le c).1
      rw [flatMap_cons, length_append, length_cons]
      omega
  unfold jstring
  rw [jloop_esc w l _ [] (by rw [length_append, length_cons]; omega)
    (by rw [length_nil, Nat.zero_add]; exact hcap), nil_append]

/-- Letters and digits stand for themselves. -/
theorem jstring_plain {cap : ℕ} {w : Bytes} (l : Bytes)
    (hw : ∀ c ∈ w, 0x20 ≤ c ∧ c ≠ quote ∧ c ≠ backslash) (hcap : w.length < cap) :
    jstring cap (w ++ quote :: l) = some (w, l) := by
  have hplain : w.flatMap escChar = w := by
    clear hcap
    induction w with
    | nil => rfl
    | cons c w ih =>
      obtain ⟨hprint, hquote, hslash⟩ := hw c mem_cons_self
      have hchar : escChar c = [c] := by
        unfold escChar
        rw [if_neg (not_or.mpr ⟨hquote, hslash⟩), if_neg (UInt8.not_lt.mpr hprint)]
      rw [flatMap_cons, hchar, ih fun d hd => hw d (mem_cons_of_mem c hd), singleton_append]
  have h := jstring_esc l hcap
  rwa [hplain] at h

end Hassmic.Arb
