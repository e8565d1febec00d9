import Hassmic.Json.Written

/-!
# Reading a string

`json_str` writes what is shown of a string's characters, as many as there is room for.  Its reads
of the text go through `JsonDoc.byte`, which stops outside of the token's own bytes, so that staying
inside is something to prove.

## Main definitions

* `Spelled` — the tokens of strings hold what the grammar allows between quotes.
* `JsonDoc.byte` — a byte of a token.
* `jsonStr` — `json_str`.

## Main results

* `jsonParse_spelled` — **what an accepted document's strings are made of**.
* `shownAt_eq` — one character of a string.
* `jsonStr_string` — **what is shown of a string**: its first characters, as many as there is room
  for.
-/

namespace Hassmic.Json

open Byte List

/-! ### The tokens of strings -/

/-- The tokens of strings hold what the grammar allows between quotes. -/
def Spelled (s : Bytes) (T : List Jtok) : Prop :=
  ∀ (i : ℕ) (k : Jtok), T[i]? = some k → k.type = .str →
    Chars (strchr escapes) ((s.drop k.start).take (k.end_ - k.start))

/-- A token that is no string, or one that holds what it should. -/
theorem spelled_emit {p : P} (h : Spelled p.s p.t) (k : ℕ) {j : Jtok}
    (hj : j.type = .str → Chars (strchr escapes) ((p.s.drop j.start).take (j.end_ - j.start))) :
    Spelled p.s (p.emit k j).t := by
  intro i k' hk' hstr
  rw [P.t_emit] at hk'
  rcases Nat.lt_or_ge i p.t.length with hi | hi
  · rw [getElem?_append_left hi] at hk'
    exact h i k' hk' hstr
  · rw [getElem?_append_right hi] at hk'
    obtain ⟨hlt, hget⟩ := List.getElem?_eq_some_iff.mp hk'
    rw [getElem_singleton] at hget
    rw [← hget] at hstr ⊢
    exact hj hstr

/-- What stands between the quotes. -/
theorem spelled_strTok {p : P} (h : Spelled p.s p.t) {b r : Bytes}
    (hbr : p.rest.drop 1 = b ++ quote :: r) (hb : Chars (strchr escapes) b) (k : ℕ) :
    Spelled p.s (p.emit k (p.strTok b.length)).t := by
  refine spelled_emit h k fun _ => ?_
  have htext : (p.s.drop (p.i + 1)).take (p.i + 1 + b.length - (p.i + 1)) = b := by
    rw [P.rest, drop_drop] at hbr
    rw [hbr, Nat.add_sub_cancel_left, take_left]
  show Chars (strchr escapes) ((p.s.drop (p.i + 1)).take (p.i + 1 + b.length - (p.i + 1)))
  rw [htext]
  exact hb

/-- `val` keeps what strings are made of. -/
def Spells (val : P → Except Stop (ℕ × P)) : Prop :=
  ∀ {p q : P} {t : ℕ}, p.Room → val p = .ok (t, q) → Spelled p.s p.t → Spelled p.s q.t

variable {val : P → Except Stop (ℕ × P)} {j : JsonDoc}

theorem spells_item (hval : Spells val) {isObj : Bool} {p q : P} (hR : p.Room)
    (h : item isObj val p = .ok q) (hp : Spelled p.s p.t) : Spelled p.s q.t := by
  obtain ⟨q₁, hq₁, h⟩ := Except.bind_eq_ok_iff.mp h
  obtain ⟨⟨t, q₂⟩, hq₂, h⟩ := Except.bind_eq_ok_iff.mp h
  obtain rfl := Except.ok.inj h
  cases isObj with
  | false =>
    obtain rfl := Except.ok.inj hq₁
    exact hval hR hq₂ hp
  | true =>
    obtain ⟨b, w, r, hrest, hb, -, hmax, rfl⟩ := (key_eq_ok hR).mp hq₁
    have hname : p.rest.drop 1 = b ++ quote :: (w ++ colon :: r) := by
      rw [hrest]
      rfl
    have hkept := hval (P.room_emit hR hmax) hq₂ (spelled_strTok hp hname hb _)
    exact hkept

theorem spells_items (hsafe : Safe val) (hval : Spells val) {isObj : Bool} :
    ∀ (k : ℕ) (first : Bool) {p q : P}, p.Room → items isObj val k first p = .ok q →
    Spelled p.s p.t →
      Spelled p.s q.t := by
  intro k
  induction k with
  | zero =>
    intro first p q _ h
    exact absurd h (by simp [items])
  | succ k ih =>
    intro first p q hR h hp
    cases hr : p.pastWs.rest with
    | nil =>
      rw [items_nil hr] at h
      exact absurd h (by simp)
    | cons c l =>
      by_cases hc : c = closing isObj
      · rw [hc] at hr
        rw [items_close hr] at h
        obtain rfl := Except.ok.inj h
        exact hp
      · rw [items_item hr hc] at h
        obtain ⟨q₁, hq₁, h⟩ := Except.bind_eq_ok_iff.mp h
        obtain ⟨q₂, hq₂, h⟩ := Except.bind_eq_ok_iff.mp h
        obtain ⟨hs₁, -, ht₁, hR₁⟩ := separator_moves hq₁
        have hp₁ : Spelled q₁.s q₁.t := by
          rw [hs₁, ht₁]
          exact hp
        have hp₂ := spells_item hval (hR₁ hR) hq₂ hp₁
        have hm₂ := (item_safe hsafe isObj (hR₁ hR)).2 q₂ hq₂
        rw [← hm₂.s] at hp₂
        have hq := ih false hm₂.room h hp₂
        rw [hm₂.s, hs₁] at hq
        exact hq

/-- The token that is filled in is no string. -/
theorem spelled_close {p : P} {s : Bytes} (h : Spelled s p.t) {t : ℕ} (e next : ℕ)
    (ht : ∀ k, p.t[t]? = some k → k.type ≠ .str) : Spelled s (close p t e next).t := by
  intro i k hk hstr
  have hget : (p.t.modify t fun k => { k with end_ := e, next := some next })[i]? = some k := hk
  rw [getElem?_modify] at hget
  split at hget
  · next heq =>
    obtain ⟨k', hk', rfl⟩ := Option.map_eq_some_iff.mp hget
    exact absurd hstr (ht k' (heq ▸ hk'))
  · exact h i k (by simpa using hget) hstr

theorem spells_container (hsafe : Safe val) (hbuilds : Builds val)
    (hval : Spells val) (isObj : Bool) : Spells (container isObj val) := by
  intro p q t hR h hp
  rw [container_eq hR] at h
  by_cases hmax : p.t.length < jsonMaxTokens
  swap
  · rw [if_neg hmax] at h
    exact absurd h (by simp)
  rw [if_pos hmax] at h
  obtain ⟨r, hr, h⟩ := Except.bind_eq_ok_iff.mp h
  obtain ⟨rfl, rfl⟩ := Prod.mk.inj (Except.ok.inj h)
  have hRin : (p.inside isObj).Room := P.room_emit hR hmax
  have htype : (if isObj then JType.obj else .arr) ≠ .str := by
    cases isObj with
    | true => decide
    | false => decide
  have hin : Spelled (p.inside isObj).s (p.inside isObj).t :=
    spelled_emit hp 1 fun hstr => absurd hstr htype
  refine spelled_close (spells_items hsafe hval _ true hRin hr hin) _ _ fun k hk => ?_
  -- the token of the container is where it was put
  have hkeeps := (items_grows hsafe hbuilds _ true hRin hr).1.keeps p.t.length (by simp [P.inside])
  rw [hkeeps] at hk
  have hput : (p.inside isObj).t[p.t.length]? =
      some ⟨if isObj then .obj else .arr, p.i, p.i, none⟩ := by
    simp [P.inside]
  rw [hput] at hk
  rw [← Option.some.inj hk]
  exact htype

theorem words_type_str : ∀ {w : Bytes × JType}, w ∈ words → w.2 ≠ .str := by decide

/-- **What the strings of a value are made of.** -/
theorem value_spells : ∀ d : ℕ, Spells (value d) := by
  intro d
  induction d with
  | zero =>
    intro p q t _ h
    rw [value, ws_eq, Except.ok_bind] at h
    exact absurd h (by simp)
  | succ d ih =>
    intro p q t hR h hp
    cases hr : p.pastWs.rest with
    | nil =>
      rw [value_nil hr] at h
      exact absurd h (by simp)
    | cons c l =>
      rw [value_cons hr] at h
      have hR' := P.room_pastWs.mpr hR
      unfold branch at h
      by_cases hq : c = quote
      · rw [if_pos hq] at h
        obtain ⟨b, r, hbr, hb, -, -, rfl⟩ := (string_eq_ok hR').mp h
        exact spelled_strTok (p := p.pastWs) hp hbr hb _
      rw [if_neg hq] at h
      by_cases hb : c = lbrace ∨ c = lbracket
      · rw [if_pos hb] at h
        have hkept := spells_container (value_safe d) (value_grows d) ih _ hR' h hp
        exact hkept
      rw [if_neg hb] at h
      by_cases hd : isDigit c ∨ c = minus
      · rw [if_pos hd, number_eq hR'] at h
        split at h
        · obtain ⟨rfl, rfl⟩ := Prod.mk.inj (Except.ok.inj h)
          exact spelled_emit (p := p.pastWs) hp _ fun hstr => JType.noConfusion hstr
        · exact absurd h (by simp)
      rw [if_neg hd, word_eq hR' (by rw [hr]; simp)] at h
      split at h
      · next w type hw =>
        split at h
        · obtain ⟨rfl, rfl⟩ := Prod.mk.inj (Except.ok.inj h)
          have htype := words_type_str (mem_of_find?_eq_some hw)
          exact spelled_emit (p := p.pastWs) hp _ fun hstr => absurd hstr htype
        · exact absurd h (by simp)
      · exact absurd h (by simp)

/-- **What an accepted document's strings are made of.** -/
theorem jsonParse_spelled {j₀ : JsonDoc} {s : Bytes} (h : jsonParse j₀ s = .ok j) :
    Spelled j.s j.t := by
  unfold jsonParse at h
  split at h
  · exact absurd h (by simp)
  obtain ⟨⟨t, q⟩, hq, h⟩ := Except.bind_eq_ok_iff.mp h
  have hR : (⟨s, 0, [], j₀.cap⟩ : P).Room := Nat.zero_le _
  have hspelled : Spelled s q.t :=
    value_spells (jsonDepth + 1) hR hq fun i k hk => absurd hk (by simp)
  simp only [ws_eq, Except.ok_bind] at h
  have hok : ∀ {j' : JsonDoc}, j' = ⟨s, q.pastWs.t, q.pastWs.cap⟩ → Spelled j'.s j'.t := by
    rintro j' rfl
    exact hspelled
  split at h
  · exact hok (Except.ok.inj h).symm
  · split at h
    · obtain ⟨c, -, h⟩ := Except.bind_eq_ok_iff.mp h
      split at h
      · exact hok (Except.ok.inj h).symm
      · exact absurd h (by simp)
    · exact absurd h (by simp)

/-! ### `json_str` -/

section Reading

variable (j : JsonDoc) (k : Jtok)

/-- The byte at `i`, which must be one of the token's. -/
def JsonDoc.byte (i : ℕ) : Except Stop UInt8 :=
  if k.start ≤ i ∧ i < k.end_ then
    match j.s[i]? with
    | some c => .ok c
    | none => .error .outside
  else .error .outside

/-- Whether the `m` bytes from `i` on are of a kind; it stops at the first that is not. -/
def allAt (f : UInt8 → Bool) : ℕ → ℕ → Except Stop Bool
  | 0, _ => .ok true
  | m + 1, i => do
      let c ← j.byte k i
      if f c then allAt f m (i + 1) else .ok false

/-- The `m` bytes from `i` on. -/
def bytesAt : ℕ → ℕ → Except Stop Bytes
  | 0, _ => .ok []
  | m + 1, i => do
      let c ← j.byte k i
      let l ← bytesAt m (i + 1)
      .ok (c :: l)

/-- `strtoul` of the four digits at `i`. -/
def unitAt (i : ℕ) : Except Stop ℕ := do
  let l ← bytesAt j k 4 i
  .ok (codeUnit l)

/-- Whether the number of a code point stands at `i`. -/
def escapeAt (i : ℕ) : Except Stop Bool := do
  let b ← j.byte k i
  if b = backslash then do
    let u ← j.byte k (i + 1)
    if u = 0x75 then allAt j k isHex 4 (i + 2) else .ok false
  else .ok false

/-- The second half of the surrogate pair that `v` begins, if it stands at `i`. -/
def lowAt (v i : ℕ) : Except Stop (Option ℕ) :=
  if 0xD800 ≤ v ∧ v < 0xDC00 ∧ i + 6 ≤ k.end_ then do
    let h ← escapeAt j k i
    if h then do
      let lo ← unitAt j k (i + 2)
      .ok (if 0xDC00 ≤ lo ∧ lo < 0xE000 then some lo else none)
    else .ok none
  else .ok none

/-- The code point whose digits stand at `i`, and where it ends. -/
def codeAt (i : ℕ) : Except Stop (ℕ × ℕ) := do
  let v ← unitAt j k i
  let lo ← lowAt j k v (i + 4)
  match lo with
  | some lo => .ok (0x10000 + (v - 0xD800) * 1024 + (lo - 0xDC00), i + 10)
  | none => .ok (v, i + 4)

/-- What is shown of the character at `i`, and where it ends. -/
def shownAt (i : ℕ) : Except Stop (Bytes × ℕ) := do
  let c ← j.byte k i
  if c = backslash then do
    let e ← j.byte k (i + 1)
    if e = 0x75 then do
      let r ← codeAt j k (i + 2)
      .ok (shownCode r.1, r.2)
    else .ok (shownLetter e, i + 2)
  else if i + (tailLen c + 1) ≤ k.end_ then do
    -- a first byte without its sequence is taken by itself
    let h ← allAt j k isCont (tailLen c) (i + 1)
    let l ← bytesAt j k (if h then tailLen c + 1 else 1) i
    .ok (l, i + l.length)
  else .ok ([c], i + 1)

/-- The loop of `json_str`, with a buffer of `n` bytes. -/
def strLoop (n : ℕ) : ℕ → ℕ → Bytes → Except Stop Bytes
  | 0, _, _ => .error .endless
  | f + 1, i, out =>
      if i < k.end_ then do
        let r ← shownAt j k i
        if r.1 ≠ [] ∧ n ≤ out.length + r.1.length then .ok out else strLoop n f r.2 (out ++ r.1)
      else .ok out

end Reading

/-- **`json_str`**: its result, and what it writes before the NUL. -/
def jsonStr (j : JsonDoc) (t : Option ℕ) (n : ℕ) : Except Stop (Bool × Bytes) :=
  if n = 0 then .ok (false, [])
  else
    match t.bind (j.t[·]?) with
    | none => .ok (false, [])
    | some k =>
        match k.type with
        | .num | .true | .false => .ok (true, (j.text k).take (n - 1))
        | .str => do
            let out ← strLoop j k n (k.end_ - k.start + 1) k.start []
            .ok (true, out)
        | .obj | .arr | .null => .ok (false, [])

/-! ### One character -/

/-- The bytes `l` stand at `i`, up to the end of the token. -/
structure At (j : JsonDoc) (k : Jtok) (i : ℕ) (l : Bytes) : Prop where
  start : k.start ≤ i
  end_ : i + l.length = k.end_
  text : l <+: j.s.drop i

namespace At

variable {j : JsonDoc} {k : Jtok} {i : ℕ} {c : UInt8} {l : Bytes}

theorem byte (h : At j k i (c :: l)) : j.byte k i = .ok c := by
  have hend := h.end_
  rw [length_cons] at hend
  have hget : j.s[i]? = some c := by
    obtain ⟨r, hr⟩ := h.text
    have hdrop := congrArg (·[0]?) hr
    rw [getElem?_drop, Nat.add_zero] at hdrop
    exact hdrop.symm
  unfold JsonDoc.byte
  rw [if_pos ⟨h.start, by omega⟩, hget]

theorem drop (h : At j k i l) {m : ℕ} (hm : m ≤ l.length) : At j k (i + m) (l.drop m) := by
  have hend := h.end_
  refine ⟨Nat.le_add_right_of_le h.start, by rw [length_drop]; omega, ?_⟩
  rw [← drop_drop]
  exact h.text.drop m

theorem tail (h : At j k i (c :: l)) : At j k (i + 1) l :=
  h.drop (m := 1) (by rw [length_cons]; omega)

theorem allAt {f : UInt8 → Bool} {m : ℕ} (h : At j k i l) (hm : m ≤ l.length) :
    allAt j k f m i = .ok ((l.take m).all f) := by
  induction m generalizing i l with
  | zero => rfl
  | succ m ih =>
    cases l with
    | nil => exact absurd hm (by simp)
    | cons c l =>
      rw [length_cons] at hm
      rw [Json.allAt, h.byte, Except.ok_bind, take_succ_cons, all_cons]
      cases hc : f c with
      | true => exact ih h.tail (by omega)
      | false => rfl

theorem bytesAt {m : ℕ} (h : At j k i l) (hm : m ≤ l.length) :
    bytesAt j k m i = .ok (l.take m) := by
  induction m generalizing i l with
  | zero => rfl
  | succ m ih =>
    cases l with
    | nil => exact absurd hm (by simp)
    | cons c l =>
      rw [length_cons] at hm
      rw [Json.bytesAt, h.byte, Except.ok_bind, ih h.tail (by omega),
        Except.ok_bind, take_succ_cons]

theorem unitAt (h : At j k i l) (hl : 4 ≤ l.length) : unitAt j k i = .ok (codeUnit l) := by
  have htake : codeUnit (l.take 4) = codeUnit l := by
    unfold codeUnit
    rw [take_take, min_self]
  rw [Json.unitAt, h.bytesAt hl, Except.ok_bind, htake]

end At

/-- Bytes inside of a sequence are no escape. -/
theorem Chars.drop_conts {esc : UInt8 → Bool} {m : ℕ} : ∀ {l : Bytes}, Chars esc l →
    (l.take m).all isCont = true →
    Chars esc (l.drop m) := by
  induction m with
  | zero => exact fun h _ => h
  | succ m ih =>
    intro l h hall
    cases h with
    | nil => exact .nil
    | unescaped hlow hq hb h =>
      rw [take_succ_cons, all_cons, Bool.and_eq_true] at hall
      exact ih h hall.2
    | escaped hu he h =>
      rw [take_succ_cons, all_cons, Bool.and_eq_true] at hall
      exact absurd rfl (ne_backslash_of_isCont hall.1).1
    | unicode hx h =>
      rw [take_succ_cons, all_cons, Bool.and_eq_true] at hall
      exact absurd rfl (ne_backslash_of_isCont hall.1).1

section Steps

variable {j : JsonDoc} {k : Jtok} {i : ℕ} {l : Bytes}

/-- A backslash and an `u` are followed by four digits. -/
theorem escapeAt_eq (h : At j k i l) (hl : Chars (strchr escapes) l) (hlen : 6 ≤ l.length) :
    escapeAt j k i = .ok (decide ([backslash, 0x75] <+: l)) := by
  unfold escapeAt
  cases hl with
  | nil => exact absurd hlen (by simp)
  | @unescaped c l hlow hq hb hl =>
    have hno : ¬ [backslash, 0x75] <+: c :: l := fun hp => hb (cons_prefix_cons.mp hp).1.symm
    rw [h.byte, Except.ok_bind, if_neg hb, decide_eq_false hno]
  | @escaped e l hu he hl =>
    have hno : ¬ [backslash, 0x75] <+: backslash :: e :: l := fun hp =>
      hu (cons_prefix_cons.mp (cons_prefix_cons.mp hp).2).1.symm
    rw [h.byte, Except.ok_bind, if_pos rfl, h.tail.byte, Except.ok_bind, if_neg hu,
      decide_eq_false hno]
  | @unicode a b c d l hx hl =>
    have hyes : [backslash, 0x75] <+: backslash :: 0x75 :: a :: b :: c :: d :: l :=
      ⟨a :: b :: c :: d :: l, rfl⟩
    have hall : allAt j k isHex 4 (i + 2) = .ok true := by
      have hfour := h.tail.tail.allAt (f := isHex) (m := 4) (by simp)
      rw [hfour]
      simp only [take_succ_cons, take_zero, all_cons, all_nil, Bool.and_true]
      rw [← hx]
      simp only [Bool.and_assoc]
    rw [h.byte, Except.ok_bind, if_pos rfl, h.tail.byte, Except.ok_bind, if_pos rfl, hall,
      decide_eq_true hyes]

/-- **The second half of a surrogate pair**, if there is one. -/
theorem lowAt_eq (h : At j k i l) (hl : Chars (strchr escapes) l) (v : ℕ) :
    lowAt j k v i = .ok (if 0xD800 ≤ v ∧ v < 0xDC00 ∧ [backslash, 0x75] <+: l ∧
      0xDC00 ≤ codeUnit (l.drop 2) ∧ codeUnit (l.drop 2) < 0xE000 then some (codeUnit (l.drop 2))
        else none) := by
  have hend := h.end_
  unfold lowAt
  by_cases hlen : 6 ≤ l.length
  · by_cases hhigh : 0xD800 ≤ v ∧ v < 0xDC00
    · rw [if_pos ⟨hhigh.1, hhigh.2, by omega⟩, escapeAt_eq h hl hlen, Except.ok_bind]
      have hunit := (h.drop (m := 2) (by omega)).unitAt (by rw [length_drop]; omega)
      by_cases hp : [backslash, 0x75] <+: l
      · rw [if_pos (decide_eq_true hp), hunit, Except.ok_bind]
        simp only [hhigh, hp, true_and]
      · rw [if_neg (by simpa using hp)]
        simp only [hp, false_and, and_false, if_false]
    · rw [if_neg fun hc => hhigh ⟨hc.1, hc.2.1⟩, if_neg fun hc => hhigh ⟨hc.1, hc.2.1⟩]
  · -- an escape that is whole has six bytes
    have hno : ¬ [backslash, 0x75] <+: l := by
      intro hp
      cases hl with
      | nil => exact absurd hp (by decide)
      | unescaped hlow hq hb hl => exact hb (cons_prefix_cons.mp hp).1.symm
      | escaped hu he hl => exact hu (cons_prefix_cons.mp (cons_prefix_cons.mp hp).2).1.symm
      | unicode hx hl => exact hlen (by simp)
    rw [if_neg (fun hc => by omega), if_neg fun hc => hno hc.2.2.1]

/-- **A code point**, from a surrogate pair where there is one. -/
theorem codeAt_eq (h : At j k i l) (hlen : 4 ≤ l.length)
    (hrest : Chars (strchr escapes) (l.drop 4)) :
    ∃ i', codeAt j k i = .ok ((codePoint l).1, i') ∧ At j k i' (codePoint l).2 ∧
      Chars (strchr escapes) (codePoint l).2 := by
  have hat := h.drop hlen
  unfold codeAt codePoint
  rw [h.unitAt hlen, Except.ok_bind, lowAt_eq hat hrest, Except.ok_bind]
  dsimp only
  by_cases hpair : 0xD800 ≤ codeUnit l ∧ codeUnit l < 0xDC00 ∧ [backslash, 0x75] <+: l.drop 4 ∧
      0xDC00 ≤ codeUnit ((l.drop 4).drop 2) ∧ codeUnit ((l.drop 4).drop 2) < 0xE000
  · rw [if_pos hpair, if_pos hpair]
    have hdrop : Chars (strchr escapes) ((l.drop 4).drop 6) ∧ 6 ≤ (l.drop 4).length := by
      obtain ⟨-, -, hp, -⟩ := hpair
      generalize l.drop 4 = r at hrest hp
      cases hrest with
      | nil => exact absurd hp (by decide)
      | unescaped hlow hq hb hr => exact absurd (cons_prefix_cons.mp hp).1.symm hb
      | escaped hu he hr => exact absurd (cons_prefix_cons.mp (cons_prefix_cons.mp hp).2).1.symm hu
      | unicode hx hr => exact ⟨hr, by simp⟩
    have hend := hat.drop hdrop.2
    rw [Nat.add_assoc] at hend
    exact ⟨i + 10, rfl, hend, hdrop.1⟩
  · rw [if_neg hpair, if_neg hpair]
    exact ⟨i + 4, rfl, hat, hrest⟩

/-- **One character of a string.** -/
theorem shownAt_eq {c : UInt8} (h : At j k i (c :: l)) (hl : Chars (strchr escapes) (c :: l)) :
    ∃ i', shownAt j k i = .ok ((next c l).1.shown, i') ∧ At j k i' (next c l).2 ∧
      Chars (strchr escapes) (next c l).2 := by
  unfold shownAt next
  rw [h.byte, Except.ok_bind]
  cases hl with
  | unescaped hlow hq hb hl =>
    rw [if_neg hb, if_neg hb]
    have hend := h.end_
    rw [length_cons] at hend
    by_cases hlen : tailLen c ≤ l.length
    · rw [if_pos (by omega), h.tail.allAt hlen, Except.ok_bind]
      by_cases hall : (l.take (tailLen c)).all isCont = true
      · have hbytes := h.bytesAt (m := tailLen c + 1) (by rw [length_cons]; omega)
        rw [if_pos hall, hbytes, Except.ok_bind, if_pos ⟨hlen, hall⟩]
        have hrest := h.drop (m := tailLen c + 1) (by rw [length_cons]; omega)
        refine ⟨_, rfl, ?_, hl.drop_conts hall⟩
        rw [take_succ_cons, length_cons, length_take, min_eq_left hlen]
        exact hrest
      · have hbytes := h.bytesAt (m := 1) (by rw [length_cons]; omega)
        rw [if_neg hall, hbytes, Except.ok_bind, if_neg fun hc => hall hc.2]
        exact ⟨_, rfl, h.tail, hl⟩
    · rw [if_neg (by omega), if_neg fun hc => hlen hc.1]
      exact ⟨_, rfl, h.tail, hl⟩
  | @escaped e l hu he hl =>
    rw [if_pos rfl, if_pos rfl, h.tail.byte, Except.ok_bind, if_neg hu]
    dsimp only
    rw [if_neg hu]
    exact ⟨_, rfl, h.tail.tail, hl⟩
  | @unicode a b c d l hx hl =>
    obtain ⟨i', hcode, hat, hchars⟩ := codeAt_eq h.tail.tail (by simp) hl
    rw [if_pos rfl, if_pos rfl, h.tail.byte, Except.ok_bind, if_pos rfl, hcode, Except.ok_bind]
    dsimp only
    rw [if_pos rfl]
    exact ⟨i', rfl, hat, hchars⟩

end Steps

/-! ### The whole string -/

/-- **As many characters as there is room for.** -/
theorem strLoop_eq {k : Jtok} {n : ℕ} : ∀ (f : ℕ) {i : ℕ} {l : Bytes} (out : Bytes), At j k i l →
    Chars (strchr escapes) l → l.length < f → out.length < n →
    ∃ m, strLoop j k n f i out = .ok (out ++ ((written l).take m).flatMap Written.shown) ∧
      out.length + (((written l).take m).flatMap Written.shown).length < n ∧
      (m < (written l).length →
        n ≤ out.length + (((written l).take (m + 1)).flatMap Written.shown).length) := by
  intro f
  induction f with
  | zero =>
    intro i l out _ _ hlen
    exact absurd hlen (Nat.not_lt_zero _)
  | succ f ih =>
    intro i l out h hl hlen hout
    have hend := h.end_
    cases l with
    | nil =>
      have hdone : ¬ i < k.end_ := by
        rw [length_nil] at hend
        omega
      refine ⟨0, ?_, hout, fun h => ?_⟩
      · rw [strLoop, if_neg hdone]
        exact congrArg Except.ok (append_nil out).symm
      · rw [written] at h
        exact absurd h (Nat.lt_irrefl 0)
    | cons c l =>
      rw [length_cons] at hend hlen
      obtain ⟨i', hshown, hat, hchars⟩ := shownAt_eq h hl
      rw [strLoop, if_pos (by omega), hshown, Except.ok_bind, written_cons]
      dsimp only
      by_cases hfull : (next c l).1.shown ≠ [] ∧ n ≤ out.length + (next c l).1.shown.length
      · rw [if_pos hfull]
        refine ⟨0, congrArg Except.ok (append_nil out).symm, hout, fun _ => ?_⟩
        rw [take_succ_cons, take_zero, flatMap_cons, flatMap_nil, append_nil]
        exact hfull.2
      · have hroom : (out ++ (next c l).1.shown).length < n := by
          rw [length_append]
          by_cases hempty : (next c l).1.shown = []
          · rw [hempty]
            exact hout
          · exact not_le.mp fun hle => hfull ⟨hempty, hle⟩
        have hshort := length_next_le c l
        obtain ⟨m, hloop, hfits, hmax⟩ := ih (out ++ (next c l).1.shown) hat hchars (by omega) hroom
        rw [length_append] at hfits hmax
        rw [if_neg hfull]
        refine ⟨m + 1, ?_, ?_, fun hm => ?_⟩
        · rw [hloop, take_succ_cons, flatMap_cons, append_assoc]
        · rw [take_succ_cons, flatMap_cons, length_append]
          omega
        · have hrest := hmax (by rw [length_cons] at hm; omega)
          rw [take_succ_cons, flatMap_cons, length_append]
          omega

/-- The bytes of a token. -/
theorem at_text {k : Jtok} (hlo : k.start ≤ k.end_) (hhi : k.end_ ≤ j.s.length) :
    At j k k.start (j.text k) := by
  refine ⟨le_rfl, ?_, take_prefix _ _⟩
  rw [JsonDoc.text, length_take, length_drop]
  omega

/-- **What is shown of a string**: its first characters, as many as there is room for. -/
theorem jsonStr_string {j₀ : JsonDoc} {s : Bytes} (h : jsonParse j₀ s = .ok j) {t : ℕ} {k : Jtok}
    (hk : j.t[t]? = some k) (hstr : k.type = .str) {n : ℕ} (hn : 0 < n) :
    ∃ m, jsonStr j (some t) n = .ok (true, ((written (j.text k)).take m).flatMap Written.shown) ∧
      (((written (j.text k)).take m).flatMap Written.shown).length < n ∧
      (m < (written (j.text k)).length →
        n ≤ (((written (j.text k)).take (m + 1)).flatMap Written.shown).length) := by
  obtain ⟨hs, hseg⟩ := jsonParse_seg h
  have hin := (List.getElem?_eq_some_iff.mp hk).1
  obtain ⟨-, hle, hend⟩ := hseg.range t k (Nat.zero_le t) hin hk
  have hchars : Chars (strchr escapes) (j.text k) := jsonParse_spelled h t k hk hstr
  have hlen : (j.text k).length < k.end_ - k.start + 1 := by
    rw [JsonDoc.text, length_take]
    omega
  obtain ⟨m, hloop, hfits, hmax⟩ :=
    strLoop_eq (k.end_ - k.start + 1) [] (at_text hle (hs ▸ hend)) hchars hlen hn
  rw [length_nil, Nat.zero_add] at hfits hmax
  refine ⟨m, ?_, hfits, hmax⟩
  unfold jsonStr
  rw [if_neg (by omega), Option.bind_some, hk]
  dsimp only
  rw [hstr]
  dsimp only
  rw [hloop]
  rfl

end Hassmic.Json
