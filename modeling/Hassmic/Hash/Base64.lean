import Hassmic.Lib.Bytes

/-!
# Base64

Both alphabets, padded or not.  The decoder takes either alphabet and stops at
the first padding character; it writes what it decoded so far even where it then
fails, so its result tells both.

## Main definitions

* `b64Encode`, `b64Decode`.

## Main results

* `b64Decode_b64Encode` — what was encoded is decoded.
* `base64_round_trip` — **it is so into any buffer that holds it, and none is written past its
  end**.
-/

namespace Hassmic

open List

/-- The character of six bits, in the alphabet for URLs or the other. -/
def b64Char (url : Bool) (v : ℕ) : UInt8 :=
  if v < 26 then (65 + v).toUInt8
  else if v < 52 then (71 + v).toUInt8
  else if v < 62 then (v - 4).toUInt8
  else if v = 62 then (if url then 0x2d else 0x2b)
  else if url then 0x5f else 0x2f

/-- The padding character. -/
abbrev b64Pad : UInt8 := 0x3d

/-- The characters of three bytes `v`, of which `k` are there. -/
def b64Group (url pad : Bool) (v k : ℕ) : Bytes :=
  let fill : Bytes := if pad then [b64Pad] else []
  [b64Char url (v / 2 ^ 18), b64Char url (v / 2 ^ 12 % 64)] ++
    (if 1 < k then [b64Char url (v / 2 ^ 6 % 64)] else fill) ++
    (if 2 < k then [b64Char url (v % 64)] else fill)

/-- `b64_encode`. -/
def b64Encode (url pad : Bool) : Bytes → Bytes
  | [] => []
  | [a] => b64Group url pad (a.toNat * 2 ^ 16) 1
  | [a, b] => b64Group url pad (a.toNat * 2 ^ 16 + b.toNat * 2 ^ 8) 2
  | a :: b :: c :: l =>
      b64Group url pad (a.toNat * 2 ^ 16 + b.toNat * 2 ^ 8 + c.toNat) 3 ++ b64Encode url pad l

/-- The six bits of a character of either alphabet. -/
def b64Value (c : UInt8) : Option ℕ :=
  if 0x41 ≤ c ∧ c ≤ 0x5a then some (c.toNat - 65)
  else if 0x61 ≤ c ∧ c ≤ 0x7a then some (c.toNat - 71)
  else if 0x30 ≤ c ∧ c ≤ 0x39 then some (c.toNat + 4)
  else if c = 0x2b ∨ c = 0x2d then some 62
  else if c = 0x2f ∨ c = 0x5f then some 63
  else none

/-- The loop of `b64_decode`: whether it reached the end, and the bytes written. -/
def b64Loop (cap : ℕ) : ℕ → ℕ → Bytes → Bytes → Bool × Bytes
  | _, _, out, [] => (true, out)
  | acc, bits, out, c :: l =>
      if c = b64Pad then (true, out)
      else
        match b64Value c with
        | none => (false, out)
        | some v =>
            let acc := (acc * 64 + v) % 2 ^ 32
            if 8 ≤ bits + 6 then
              if cap ≤ out.length then (false, out)
              else b64Loop cap acc (bits - 2) (out ++ [(acc / 2 ^ (bits - 2) % 256).toUInt8]) l
            else b64Loop cap acc (bits + 6) out l

/-- `b64_decode` into a buffer of `cap` bytes: whether it succeeded, and the bytes it
wrote. -/
def b64Decode (l : Bytes) (cap : ℕ) : Bool × Bytes := b64Loop cap 0 0 [] l

/-- What `b64_decode` returns. -/
def b64Returned (r : Bool × Bytes) : ℤ := if r.1 then r.2.length else -1

theorem b64Value_b64Char (url : Bool) : ∀ v < 64,
    b64Char url v ≠ b64Pad ∧ b64Value (b64Char url v) = some v := by
  cases url <;> decide

/-- One character that does not complete a byte. -/
theorem b64Loop_first {cap acc : ℕ} {out l : Bytes} {url : Bool} {v : ℕ} (hv : v < 64) :
    b64Loop cap acc 0 out (b64Char url v :: l) = b64Loop cap ((acc * 64 + v) % 2 ^ 32) 6 out l := by
  obtain ⟨hpad, hval⟩ := b64Value_b64Char url v hv
  rw [b64Loop, if_neg hpad, hval]
  simp

/-- One character that completes a byte. -/
theorem b64Loop_next {cap acc bits : ℕ} {out l : Bytes} {url : Bool} {v : ℕ} (hv : v < 64)
    (hbits : 2 ≤ bits) (hcap : out.length < cap) :
    b64Loop cap acc bits out (b64Char url v :: l) =
      b64Loop cap ((acc * 64 + v) % 2 ^ 32) (bits - 2)
        (out ++ [((acc * 64 + v) % 2 ^ 32 / 2 ^ (bits - 2) % 256).toUInt8]) l := by
  obtain ⟨hpad, hval⟩ := b64Value_b64Char url v hv
  rw [b64Loop, if_neg hpad, hval]
  simp only
  rw [if_pos (by omega), if_neg (by omega)]

theorem toUInt8_eq {n : ℕ} {a : UInt8} (h : n = a.toNat) : n.toUInt8 = a := by
  rw [h]
  simp

theorem b64Loop_b64Encode (url pad : Bool) (l : Bytes) : ∀ (cap acc : ℕ) (out : Bytes),
    out.length + l.length ≤ cap →
    b64Loop cap acc 0 out (b64Encode url pad l) = (true, out ++ l) := by
  induction l using b64Encode.induct with
  | case1 => intro cap acc out _; simp [b64Encode, b64Loop]
  | case2 a =>
    intro cap acc out hcap
    have ha := a.toNat_lt
    simp only [length_cons, length_nil] at hcap
    rw [b64Encode, b64Group]
    simp only [Nat.lt_irrefl, if_false, cons_append, nil_append, show ¬ 2 < 1 by omega]
    rw [b64Loop_first (by omega), b64Loop_next (by omega) (by omega) (by omega)]
    rw [toUInt8_eq (a := a) (by omega)]
    cases pad <;> simp [b64Loop]
  | case3 a b =>
    intro cap acc out hcap
    have ha := a.toNat_lt
    have hb := b.toNat_lt
    simp only [length_cons, length_nil] at hcap
    rw [b64Encode, b64Group]
    simp only [show 1 < 2 by omega, if_true, cons_append, nil_append, show ¬ 2 < 2 by omega,
      if_false]
    rw [b64Loop_first (by omega), b64Loop_next (by omega) (by omega) (by omega),
      b64Loop_next (by omega) (by omega) (by simp; omega)]
    rw [toUInt8_eq (a := a) (by omega), toUInt8_eq (a := b) (by omega)]
    cases pad <;> simp [b64Loop]
  | case4 a b c l ih =>
    intro cap acc out hcap
    have ha := a.toNat_lt
    have hb := b.toNat_lt
    have hc := c.toNat_lt
    simp only [length_cons] at hcap
    rw [b64Encode, b64Group]
    simp only [show 1 < 3 by omega, if_true, cons_append, nil_append, show 2 < 3 by omega]
    rw [b64Loop_first (by omega), b64Loop_next (by omega) (by omega) (by omega),
      b64Loop_next (by omega) (by omega) (by simp; omega),
      b64Loop_next (by omega) (by omega) (by simp; omega)]
    rw [toUInt8_eq (a := a) (by omega), toUInt8_eq (a := b) (by omega),
      toUInt8_eq (a := c) (by omega), ih _ _ _ (by simp; omega)]
    simp

/-! ### The characters of an encoding -/

/-- What holds of the alphabet and of the padding holds of every character written. -/
theorem forall_mem_b64Group {q : UInt8 → Prop} {url pad : Bool}
    (hchar : ∀ v < 64, q (b64Char url v)) (hpad : q b64Pad) {v : ℕ} (hv : v < 2 ^ 24) (k : ℕ) :
    ∀ c ∈ b64Group url pad v k, q c := by
  have hfill : ∀ c ∈ (if pad then [b64Pad] else [] : Bytes), q c := by
    intro c hc
    split at hc
    · rw [mem_singleton.mp hc]
      exact hpad
    · exact absurd hc (by simp)
  intro c hc
  unfold b64Group at hc
  simp only [mem_append, mem_cons, not_mem_nil, or_false] at hc
  rcases hc with ((rfl | rfl) | hc) | hc
  · exact hchar _ (by omega)
  · exact hchar _ (by omega)
  · split at hc
    · rw [mem_singleton.mp hc]
      exact hchar _ (by omega)
    · exact hfill c hc
  · split at hc
    · rw [mem_singleton.mp hc]
      exact hchar _ (by omega)
    · exact hfill c hc

theorem forall_mem_b64Encode {q : UInt8 → Prop} {url pad : Bool}
    (hchar : ∀ v < 64, q (b64Char url v)) (hpad : q b64Pad) (l : Bytes) :
    ∀ c ∈ b64Encode url pad l, q c := by
  induction l using b64Encode.induct with
  | case1 => simp [b64Encode]
  | case2 a =>
    have ha := a.toNat_lt
    rw [b64Encode]
    exact forall_mem_b64Group hchar hpad (by omega) 1
  | case3 a b =>
    have ha := a.toNat_lt
    have hb := b.toNat_lt
    rw [b64Encode]
    exact forall_mem_b64Group hchar hpad (by omega) 2
  | case4 a b c l ih =>
    have ha := a.toNat_lt
    have hb := b.toNat_lt
    have hc := c.toNat_lt
    rw [b64Encode]
    intro x hx
    rcases mem_append.mp hx with h | h
    · exact forall_mem_b64Group hchar hpad (by omega) 3 x h
    · exact ih x h

/-- A padded encoding has four characters for three bytes or fewer. -/
theorem length_b64Encode (url : Bool) (l : Bytes) :
    (b64Encode url true l).length = 4 * ((l.length + 2) / 3) := by
  induction l using b64Encode.induct with
  | case1 => simp [b64Encode]
  | case2 a => simp [b64Encode, b64Group]
  | case3 a b => simp [b64Encode, b64Group]
  | case4 a b c l ih =>
    rw [b64Encode, length_append, ih]
    simp [b64Group]
    omega

/-! ### The round trip -/

/-- **What was encoded is decoded**, into any buffer that holds it. -/
theorem b64Decode_b64Encode (url pad : Bool) {l : Bytes} {cap : ℕ} (h : l.length ≤ cap) :
    b64Decode (b64Encode url pad l) cap = (true, l) := by
  rw [b64Decode, b64Loop_b64Encode url pad l cap 0 [] (by simpa using h), nil_append]

/-- The loop writes no byte past the end of the buffer. -/
theorem length_b64Loop_le {cap : ℕ} : ∀ (text : Bytes) {acc bits : ℕ} {out : Bytes},
    out.length ≤ cap → (b64Loop cap acc bits out text).2.length ≤ cap := by
  intro text
  induction text with
  | nil =>
    intro acc bits out h
    exact h
  | cons c text ih =>
    intro acc bits out h
    rw [b64Loop]
    split
    · exact h
    · cases b64Value c with
      | none => exact h
      | some v =>
        dsimp only
        split
        · split
          · exact h
          · -- there is room for one more
            apply ih
            rw [length_append, length_singleton]
            omega
        · exact ih h

/-- **Base64.**  What was encoded in either alphabet, padded or not, is decoded into any buffer that
holds it, and its length is returned; no text makes the decoder write past the end. -/
theorem base64_round_trip :
    (∀ (url pad : Bool) (l : Bytes) (cap : ℕ), l.length ≤ cap →
      b64Decode (b64Encode url pad l) cap = (true, l) ∧
      b64Returned (b64Decode (b64Encode url pad l) cap) = l.length) ∧
    ∀ (text : Bytes) (cap : ℕ), (b64Decode text cap).2.length ≤ cap := by
  refine ⟨fun url pad l cap h => ?_, fun text cap => length_b64Loop_le text (Nat.zero_le cap)⟩
  have hback := b64Decode_b64Encode url pad h
  rw [hback]
  exact ⟨rfl, rfl⟩

/-- Four bytes without padding, into a buffer of four. -/
theorem base64_round_trip_four :
    b64Decode (b64Encode true false [0xfb, 0xff, 0x00, 0x41]) 4 = (true, [0xfb, 0xff, 0x00, 0x41]) ∧
      b64Returned (b64Decode (b64Encode true false [0xfb, 0xff, 0x00, 0x41]) 4) = 4 :=
  base64_round_trip.1 true false [0xfb, 0xff, 0x00, 0x41] 4 (by decide)

end Hassmic
