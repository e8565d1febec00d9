import Hassmic.Json.Grammar

/-!
# What the parts of the JSON parser compute

The parts that do not recurse into values are given here as equations over the
text that is left, `P.rest`: the loops over white space, numbers and strings take
exactly a prefix of it, and no step of them reads beyond its end.

## Main results

* `ws_eq`, `string_eq`, `number_eq`, `word_eq` — the equations.
* `key_eq_ok`, `items_close`, `items_item`, `value_cons` — one turn of the rest of
  the descent.
-/

namespace Hassmic.Json

open Byte List Option

namespace P

/-- The text that is left at the cursor. -/
def rest (p : P) : Bytes := p.s.drop p.i

/-- The token array has room for its tokens. -/
def Room (p : P) : Prop := p.t.length ≤ p.cap.1

theorem length_rest (p : P) : p.rest.length = p.n - p.i := by simp [rest, n]

variable {p : P}

theorem add_lt_n {k : ℕ} : p.i + k < p.n ↔ k < p.rest.length := by
  rw [length_rest]; omega

theorem i_lt_n : p.i < p.n ↔ p.rest ≠ [] := by
  rw [← length_pos_iff, ← add_lt_n, Nat.add_zero]

theorem n_le_i : p.n ≤ p.i ↔ p.rest = [] := by
  rw [← Nat.not_lt, i_lt_n, not_not]

@[simp] theorem rest_adv (p : P) (k : ℕ) : (p.adv k).rest = p.rest.drop k := by
  simp [rest, adv, drop_drop]

@[simp] theorem n_adv (p : P) (k : ℕ) : (p.adv k).n = p.n := rfl
@[simp] theorem i_adv (p : P) (k : ℕ) : (p.adv k).i = p.i + k := rfl
@[simp] theorem s_adv (p : P) (k : ℕ) : (p.adv k).s = p.s := rfl
@[simp] theorem t_adv (p : P) (k : ℕ) : (p.adv k).t = p.t := rfl
@[simp] theorem cap_adv (p : P) (k : ℕ) : (p.adv k).cap = p.cap := rfl
@[simp] theorem room_adv {k : ℕ} : (p.adv k).Room ↔ p.Room := Iff.rfl
@[simp] theorem adv_zero (p : P) : p.adv 0 = p := rfl

@[simp] theorem adv_adv (p : P) (k l : ℕ) : (p.adv k).adv l = p.adv (k + l) := by
  simp [adv, Nat.add_assoc]

theorem peek_eq {k : ℕ} {c : UInt8} (h : p.rest[k]? = some c) : p.peek k = .ok c := by
  rw [rest, getElem?_drop] at h
  rw [peek, h]

theorem peek_zero {c : UInt8} {l : Bytes} (h : p.rest = c :: l) : p.peek 0 = .ok c :=
  peek_eq (by rw [h]; rfl)

end P

/-! ### The token array -/

/-- The capacity once there is room for one more than `k` tokens. -/
def Cap.room (c : Cap) (k : ℕ) : Cap := if k = c.1 then c.grow.getD c else c

/-- The cursor after a token was added and `k` bytes were passed. -/
def P.emit (p : P) (k : ℕ) (j : Jtok) : P :=
  { p with i := p.i + k, t := p.t ++ [j], cap := p.cap.room p.t.length }

@[simp] theorem P.rest_emit (p : P) (k : ℕ) (j : Jtok) : (p.emit k j).rest = p.rest.drop k := by
  simp [P.rest, P.emit, drop_drop]

@[simp] theorem P.n_emit (p : P) (k : ℕ) (j : Jtok) : (p.emit k j).n = p.n := rfl
@[simp] theorem P.s_emit (p : P) (k : ℕ) (j : Jtok) : (p.emit k j).s = p.s := rfl
@[simp] theorem P.i_emit (p : P) (k : ℕ) (j : Jtok) : (p.emit k j).i = p.i + k := rfl
@[simp] theorem P.t_emit (p : P) (k : ℕ) (j : Jtok) : (p.emit k j).t = p.t ++ [j] := rfl

theorem Cap.le_max (c : Cap) : c.1 ≤ jsonMaxTokens := by
  rcases c with ⟨c, rfl | ⟨k, hk, rfl⟩⟩
  · exact Nat.zero_le _
  · exact Nat.mul_le_mul_left 256 (Nat.pow_le_pow_right (by omega) hk)

theorem Cap.grow_eq_none {c : Cap} : c.grow = none ↔ jsonMaxTokens ≤ c.1 := by
  unfold Cap.grow
  split <;> simp_all

theorem Cap.lt_of_grow {c c' : Cap} (h : c.grow = some c') : c.1 < c'.1 := by
  unfold Cap.grow at h
  split at h
  · exact absurd h (by simp)
  · obtain rfl := some.inj h
    simp only
    split <;> omega

variable {k : ℕ} {p : P} {l : Bytes} {c : UInt8}

theorem Cap.lt_room {c : Cap} (hk : k ≤ c.1) (hmax : k < jsonMaxTokens) :
    k < (c.room k).1 := by
  unfold Cap.room
  split
  · next h =>
    cases hg : c.grow with
    | none =>
      have := Cap.grow_eq_none.mp hg
      omega
    | some c' =>
      have := Cap.lt_of_grow hg
      simp only [getD_some]
      omega
  · omega

theorem P.room_emit {j : Jtok} (hR : p.Room) (hmax : p.t.length < jsonMaxTokens) :
    (p.emit k j).Room := by
  have := Cap.lt_room hR hmax
  simpa [P.Room, P.emit] using this

/-- A token is added unless the array holds `jsonMaxTokens` of them. -/
theorem tok_eq (hR : p.Room) (type : JType) (start : ℕ) :
    tok p type start = if p.t.length < jsonMaxTokens then
      .ok (p.t.length, p.emit 0 ⟨type, start, start, none⟩) else .error .refused := by
  have hle := Cap.le_max p.cap
  unfold tok P.emit Cap.room
  unfold P.Room at hR
  by_cases heq : p.t.length = p.cap.1
  · rw [if_pos heq, if_pos heq]
    cases hg : p.cap.grow with
    | none =>
      have := Cap.grow_eq_none.mp hg
      rw [if_neg (by omega)]
    | some c =>
      have : ¬ jsonMaxTokens ≤ p.cap.1 := fun h => by
        rw [Cap.grow_eq_none.mpr h] at hg; exact absurd hg (by simp)
      rw [if_pos (by omega)]
      rfl
  · rw [if_neg heq, if_neg heq, if_pos (by omega)]
    rfl

/-- Filling in the token just added. -/
theorem close_emit (p : P) (k e next : ℕ) (type : JType) (start : ℕ) :
    close (p.emit k ⟨type, start, start, none⟩) p.t.length e next
      = p.emit k ⟨type, start, e, some next⟩ := by
  simp only [close, P.emit, P.mk.injEq, true_and, and_true]
  refine ext_getElem? fun j => ?_
  rw [getElem?_modify]
  rcases Nat.lt_trichotomy j p.t.length with h | rfl | h
  · rw [getElem?_append_left h, getElem?_append_left h]
    simp [Nat.ne_of_gt h]
  · simp
  · simp [getElem?_append_right h.le, Nat.ne_of_lt h, Nat.sub_ne_zero_of_lt h]

theorem emit_adv (p : P) (k l : ℕ) (j : Jtok) : (p.emit k j).adv l = p.emit (k + l) j := by
  simp [P.emit, P.adv, Nat.add_assoc]

/-! ### White space, numbers and words -/

/-- The loop takes the longest prefix of what is left whose bytes pass. -/
theorem skipWhile_eq (f : UInt8 → Bool) : ∀ (k : ℕ) (p : P), p.rest.length < k →
    skipWhile f k p = .ok (p.adv (p.rest.takeWhile f).length) := by
  intro k
  induction k with
  | zero => intro p h; omega
  | succ k ih =>
    intro p hk
    unfold skipWhile
    cases hr : p.rest with
    | nil =>
      rw [if_neg (by rw [P.i_lt_n, hr]; simp)]
      rfl
    | cons c l =>
      rw [if_pos (by rw [P.i_lt_n, hr]; simp), P.peek_zero hr, Except.ok_bind]
      have hrest : (p.adv 1).rest = l := by simp [hr]
      by_cases hc : f c
      · rw [if_pos hc, ih _ (by rw [hrest]; rw [hr] at hk; simpa using hk), hrest, P.adv_adv,
          takeWhile_cons_of_pos hc, length_cons, Nat.add_comm]
      · rw [if_neg hc, takeWhile_cons_of_neg hc]
        rfl

/-- The cursor past the white space. -/
def P.pastWs (p : P) : P := p.adv (p.rest.takeWhile isWs).length

theorem ws_eq (p : P) : ws p = .ok p.pastWs :=
  skipWhile_eq _ _ _ (by rw [P.length_rest]; omega)

@[simp] theorem P.rest_pastWs (p : P) : p.pastWs.rest = p.rest.dropWhile isWs := by
  rw [P.pastWs, P.rest_adv]
  conv_lhs => rw [← takeWhile_append_dropWhile (p := isWs) (l := p.rest)]
  rw [drop_left']
  simp [takeWhile_append_dropWhile]

theorem P.room_pastWs : p.pastWs.Room ↔ p.Room := Iff.rfl

theorem P.t_pastWs (p : P) : p.pastWs.t = p.t := rfl
theorem P.i_pastWs (p : P) : p.pastWs.i = p.i + (p.rest.takeWhile isWs).length := rfl

theorem ws_takeWhile (l : Bytes) : Ws (l.takeWhile isWs) :=
  fun _ hc => mem_takeWhile_imp hc

/-- White space ends where something else begins. -/
theorem takeWhile_ws {a : Bytes} (ha : Ws a) (hl : ∀ c ∈ l.head?, isWs c = false) :
    (a ++ l).takeWhile isWs = a := by
  rw [takeWhile_append_of_pos ha]
  cases l with
  | nil => simp
  | cons c l => rw [takeWhile_cons_of_neg (by simp [hl c (by simp)]), append_nil]

theorem P.pastWs_eq {a : Bytes} (hrest : p.rest = a ++ l) (ha : Ws a)
    (hl : ∀ c ∈ l.head?, isWs c = false) : p.pastWs = p.adv a.length := by
  rw [P.pastWs, hrest, takeWhile_ws ha hl]

/-- A number is the longest run of `numerals` (and NULs). -/
theorem number_eq (hR : p.Room) :
    number p = if p.t.length < jsonMaxTokens then
      .ok (p.t.length, p.emit (p.rest.takeWhile (strchr numerals)).length
        ⟨.num, p.i, p.i + (p.rest.takeWhile (strchr numerals)).length, some (p.t.length + 1)⟩)
      else .error .refused := by
  set k := (p.rest.takeWhile (strchr numerals)).length with hk
  rw [number, skipWhile_eq _ _ _ (by rw [P.length_rest]; omega), ← hk, Except.ok_bind,
    tok_eq (P.room_adv.mpr hR), P.t_adv]
  by_cases hmax : p.t.length < jsonMaxTokens
  · have hemit : (p.adv k).emit 0 ⟨.num, p.i, p.i, none⟩ = p.emit k ⟨.num, p.i, p.i, none⟩ := rfl
    rw [if_pos hmax, if_pos hmax, Except.ok_bind, hemit]
    simp only [close_emit, P.i_emit]
  · rw [if_neg hmax, if_neg hmax]
    rfl

/-- A literal is the first of the words that what is left starts with. -/
theorem word_eq (hR : p.Room) (hne : p.rest ≠ []) : ∀ ws : List (Bytes × JType),
    word p ws = match ws.find? fun w => decide (w.1 <+: p.rest) with
      | some (w, type) => if p.t.length < jsonMaxTokens then
          .ok (p.t.length, p.emit w.length ⟨type, p.i, p.i + w.length, some (p.t.length + 1)⟩)
          else .error .refused
      | none => .error .refused := by
  intro ws
  induction ws with
  | nil => rfl
  | cons wt ws ih =>
    obtain ⟨w, type⟩ := wt
    have hin := P.i_lt_n.mpr hne
    unfold word
    by_cases hpre : w <+: p.rest
    · have hlen : w.length ≤ p.n - p.i := by rw [← P.length_rest]; exact hpre.length_le
      have hread : p.read w.length = .ok w := by
        rw [P.read, if_pos (by omega), ← P.rest]
        exact congrArg Except.ok (prefix_iff_eq_take.mp hpre).symm
      rw [find?_cons_of_pos (by simpa using hpre), if_pos hlen, hread, Except.ok_bind,
        if_pos rfl, tok_eq hR]
      by_cases hmax : p.t.length < jsonMaxTokens
      · simp only [if_pos hmax, Except.ok_bind, emit_adv, Nat.zero_add, close_emit, P.i_emit]
      · simp only [if_neg hmax, Except.error_bind]
    · rw [find?_cons_of_neg (by simpa using hpre), ← ih]
      by_cases hlen : w.length ≤ p.n - p.i
      · have hread : p.read w.length = .ok (p.rest.take w.length) := by
          rw [P.read, if_pos (by omega)]; rfl
        have hdiff : p.rest.take w.length ≠ w := fun h => hpre (h ▸ take_prefix _ _)
        rw [if_pos hlen, hread, Except.ok_bind, if_neg hdiff]
      · rw [if_neg hlen]

/-! ### Strings -/

/-- How many bytes of a string come before its closing quote, if it has one and
all of them may stand in a string. -/
def strEnd : Bytes → Option ℕ
  | [] => none
  | c :: l =>
      if c = quote then some 0
      else if c < 0x20 then none
      else if c = backslash then
        match l with
        | [] => none
        | e :: l =>
            if e = 0x75 then
              match l with
              | a :: b :: c :: d :: l =>
                  if isHex a && isHex b && isHex c && isHex d then (strEnd l).map (· + 6) else none
              | _ => none
            else if strchr escapes e then (strEnd l).map (· + 2)
            else none
      else (strEnd l).map (· + 1)

/-- Characters of a string and the quote after them are found by `strEnd`. -/
theorem strEnd_of_chars {b : Bytes} (hb : Chars (strchr escapes) b) (r : Bytes) :
    strEnd (b ++ quote :: r) = some b.length := by
  induction hb with
  | nil => rw [nil_append, strEnd.eq_def]; rfl
  | unescaped hlow hq hb _ ih =>
    rw [cons_append, strEnd.eq_def]
    simp [hlow, hq, hb, ih]
  | escaped hu he _ ih =>
    rw [cons_append, cons_append, strEnd.eq_def]
    simp [hu, he, ih]
    rfl
  | unicode hx _ ih =>
    simp only [cons_append]
    rw [strEnd.eq_def]
    simp [hx, ih]
    rfl

/-- What `strEnd` finds are characters of a string and the quote after them. -/
theorem chars_of_strEnd : ∀ (n : ℕ) {l : Bytes} {k : ℕ}, l.length ≤ n → strEnd l = some k →
    ∃ b r, l = b ++ quote :: r ∧ b.length = k ∧ Chars (strchr escapes) b := by
  intro n
  induction n with
  | zero =>
    intro l k hn h
    rw [length_eq_zero_iff.mp (Nat.le_zero.mp hn), strEnd.eq_def] at h
    exact absurd h (by simp)
  | succ n ih =>
    intro l k hn h
    -- the bytes `v` of one character, before what the induction hypothesis is about
    have hstep : ∀ (v l' : Bytes), l = v ++ l' → v ≠ [] →
        (∀ b, Chars (strchr escapes) b → Chars (strchr escapes) (v ++ b)) →
        (strEnd l').map (· + v.length) = some k →
        ∃ b r, l = b ++ quote :: r ∧ b.length = k ∧ Chars (strchr escapes) b := by
      intro v l' hl hv hcons hk
      obtain ⟨k', hk', rfl⟩ := map_eq_some_iff.mp hk
      have hpos := length_pos_iff.mpr hv
      obtain ⟨b, r, hbr, rfl, hb⟩ := ih (by rw [hl, length_append] at hn; omega) hk'
      exact ⟨v ++ b, r, by rw [hl, hbr, append_assoc],
        by rw [length_append, Nat.add_comm], hcons b hb⟩
    cases l with
    | nil => rw [strEnd.eq_def] at h; exact absurd h (by simp)
    | cons c l =>
      rw [strEnd.eq_def] at h
      simp only at h
      by_cases hq : c = quote
      · rw [if_pos hq] at h
        exact ⟨[], l, by rw [hq]; rfl, some.inj h, .nil⟩
      rw [if_neg hq] at h
      by_cases hlow : c < 0x20
      · rw [if_pos hlow] at h; exact absurd h (by simp)
      rw [if_neg hlow] at h
      by_cases hb : c = backslash
      · rw [if_pos hb] at h
        subst hb
        cases l with
        | nil => exact absurd h (by simp)
        | cons e l =>
          simp only at h
          by_cases hu : e = 0x75
          · rw [if_pos hu] at h
            subst hu
            match l, hstep, h with
            | [], _, h | [_], _, h | [_, _], _, h | [_, _, _], _, h => exact absurd h (by simp)
            | a :: b :: c :: d :: l, hstep, h =>
              simp only at h
              split at h
              · next hx =>
                exact hstep [backslash, 0x75, a, b, c, d] l rfl (by simp)
                  (fun _ hb => .unicode hx hb) h
              · exact absurd h (by simp)
          · rw [if_neg hu] at h
            split at h
            · next he =>
                exact hstep [backslash, e] l rfl (by simp) (fun _ hb => .escaped hu he hb) h
            · exact absurd h (by simp)
      · rw [if_neg hb] at h
        exact hstep [c] l rfl (by simp) (fun _ h => .unescaped hlow hq hb h) h

theorem strEnd_eq_some : strEnd l = some k ↔
    ∃ b r, l = b ++ quote :: r ∧ b.length = k ∧ Chars (strchr escapes) b := by
  constructor
  · exact chars_of_strEnd l.length le_rfl
  · rintro ⟨b, r, rfl, rfl, hb⟩
    exact strEnd_of_chars hb r

theorem hex4_eq {a b d : UInt8}
    (h : p.rest.drop k = a :: b :: c :: d :: l) :
    hex4 p k = .ok (isHex a && isHex b && isHex c && isHex d) := by
  have hget : ∀ m, p.rest[k + m]? = (a :: b :: c :: d :: l)[m]? := by
    intro m; rw [← h, getElem?_drop]
  have ha : p.peek k = .ok a := P.peek_eq (hget 0)
  have hb : p.peek (k + 1) = .ok b := P.peek_eq (hget 1)
  have hc : p.peek (k + 1 + 1) = .ok c := P.peek_eq (hget 2)
  have hd : p.peek (k + 1 + 1 + 1) = .ok d := P.peek_eq (hget 3)
  simp only [hex4, hexRun, ha, hb, hc, hd, Except.ok_bind]
  cases isHex a <;> cases isHex b <;> cases isHex c <;> cases isHex d <;> rfl

/-- The loop stops at the closing quote; without one it refuses the string or
runs to the end of the text. -/
theorem stringLoop_eq : ∀ (k : ℕ) (p : P), p.rest.length < k →
    (∀ m, strEnd p.rest = some m → stringLoop k p = .ok (p.adv m)) ∧
    (strEnd p.rest = none → stringLoop k p = .error .refused ∨
      stringLoop k p = .ok (p.adv p.rest.length)) := by
  intro k
  induction k with
  | zero => intro p h; omega
  | succ k ih =>
    intro p hk
    -- one turn that passes `m` bytes keeps what the rest of the loop says
    have hstep : ∀ m, 0 < m → m ≤ p.rest.length →
        (∀ r, (strEnd (p.rest.drop m)).map (· + m) = some r →
          stringLoop k (p.adv m) = .ok (p.adv r)) ∧
        ((strEnd (p.rest.drop m)).map (· + m) = none → stringLoop k (p.adv m) = .error .refused ∨
          stringLoop k (p.adv m) = .ok (p.adv p.rest.length)) := by
      intro m hm hle
      obtain ⟨h1, h2⟩ := ih (p.adv m) (by rw [P.rest_adv, length_drop]; omega)
      rw [P.rest_adv] at h1 h2
      refine ⟨fun r hr => ?_, fun hn => ?_⟩
      · obtain ⟨r', hr', rfl⟩ := map_eq_some_iff.mp hr
        rw [h1 r' hr', P.adv_adv, Nat.add_comm]
      · rcases h2 (map_eq_none_iff.mp hn) with h | h
        · exact Or.inl h
        · right
          rw [h, P.adv_adv, length_drop, Nat.add_sub_cancel' hle]
    unfold stringLoop
    cases hr : p.rest with
    | nil =>
      rw [if_neg (by rw [P.i_lt_n, hr]; simp)]
      simp [strEnd]
    | cons c l =>
      rw [hr] at hstep
      rw [if_pos (by rw [P.i_lt_n, hr]; simp), P.peek_zero hr, Except.ok_bind]
      unfold strEnd
      by_cases hq : c = quote
      · simp only [if_pos hq]
        simp
      simp only [if_neg hq]
      by_cases hlow : c < 0x20
      · simp only [if_pos hlow]
        simp
      simp only [if_neg hlow]
      by_cases hb : c = backslash
      · simp only [if_pos hb]
        cases l with
        | nil =>
          rw [if_pos (by have := p.length_rest; rw [hr] at this; simp at this; omega)]
          simp
        | cons e l =>
          rw [if_neg (by have := p.length_rest; rw [hr] at this; simp at this; omega),
            P.peek_eq (c := e) (by rw [hr]; rfl), Except.ok_bind]
          by_cases hu : e = 0x75
          · simp only [if_pos hu]
            have h6 : p.n < p.i + 6 ↔ l.length < 4 := by
              have := p.length_rest
              rw [hr] at this
              simp only [length_cons] at this
              omega
            match l, h6, hstep with
            | [], h6, _ | [_], h6, _ | [_, _], h6, _ | [_, _, _], h6, _ =>
              rw [if_pos (by rw [h6]; simp)]
              simp
            | a :: b :: c' :: d :: l, h6, hstep =>
              rw [if_neg (by rw [h6]; simp), hex4_eq (by rw [hr]; rfl), Except.ok_bind]
              by_cases hx : (isHex a && isHex b && isHex c' && isHex d) = true
              · simp only [if_pos hx]
                exact hstep 6 (by omega) (by simp)
              · simp only [if_neg hx]
                simp
          · simp only [if_neg hu]
            by_cases he : strchr escapes e
            · simp only [if_pos he]
              exact hstep 2 (by omega) (by simp)
            · simp only [if_neg he]
              simp
      · simp only [if_neg hb]
        exact hstep 1 (by omega) (by simp)

/-- A string is taken when it has a closing quote. -/
theorem string_eq (hR : p.Room) :
    string p = match strEnd (p.rest.drop 1) with
      | some k => if p.t.length < jsonMaxTokens then
          .ok (p.t.length,
            p.emit (k + 2) ⟨.str, p.i + 1, p.i + 1 + k, some (p.t.length + 1)⟩)
          else .error .refused
      | none => .error .refused := by
  obtain ⟨h1, h2⟩ := stringLoop_eq ((p.adv 1).n - (p.adv 1).i + 1) (p.adv 1)
    (by rw [P.length_rest]; omega)
  rw [P.rest_adv] at h1 h2
  unfold string
  cases hend : strEnd (p.rest.drop 1) with
  | none =>
    rcases h2 hend with h | h
    · simp only [h, Except.error_bind]
    · have : ((p.adv 1).adv (p.rest.drop 1).length).n ≤
          ((p.adv 1).adv (p.rest.drop 1).length).i := by
        rw [P.n_le_i]
        simp only [P.rest_adv, drop_length]
      simp only [h, Except.ok_bind, if_pos this]
  | some k =>
    simp only [h1 k hend, Except.ok_bind]
    have hlt : k < (p.rest.drop 1).length := by
      obtain ⟨b, r, hbr, rfl, -⟩ := strEnd_eq_some.mp hend
      rw [hbr]; simp
    have hin : ¬ ((p.adv 1).adv k).n ≤ ((p.adv 1).adv k).i := by
      rw [P.n_le_i]
      simp only [P.rest_adv]
      intro h
      have := congrArg List.length h
      simp only [length_drop, length_nil] at this hlt
      omega
    rw [if_neg hin, tok_eq (by simpa using hR)]
    by_cases hmax : p.t.length < jsonMaxTokens
    · have hemit : ((p.adv 1).adv k).emit 0 ⟨.str, (p.adv 1).i, (p.adv 1).i, none⟩
          = p.emit (1 + k) ⟨.str, p.i + 1, p.i + 1, none⟩ := by
        simp [P.emit, P.adv, Nat.add_assoc]
      simp only [P.t_adv, if_pos hmax, Except.ok_bind, hemit, close_emit, emit_adv, P.i_emit]
      rw [show 1 + k + 1 = k + 2 by omega, Nat.add_assoc]
    · have hmax' : ¬ ((p.adv 1).adv k).t.length < jsonMaxTokens := hmax
      simp only [if_neg hmax', if_neg hmax, Except.error_bind]

/-! ### The rest of the descent -/

/-- The token of a string of `k` bytes at the cursor. -/
def P.strTok (p : P) (k : ℕ) : Jtok :=
  ⟨.str, p.i + 1, p.i + 1 + k, some (p.t.length + 1)⟩

/-- A string is taken exactly when it has a closing quote and there is room for
its token. -/
theorem string_eq_ok {q : P} {t : ℕ} (hR : p.Room) :
    string p = .ok (t, q) ↔ ∃ b r, p.rest.drop 1 = b ++ quote :: r ∧ Chars (strchr escapes) b ∧
      p.t.length < jsonMaxTokens ∧ t = p.t.length ∧ q = p.emit (b.length + 2)
        (p.strTok b.length) := by
  rw [string_eq hR]
  constructor
  · intro h
    cases hend : strEnd (p.rest.drop 1) with
    | none => rw [hend] at h; exact absurd h (by simp)
    | some k =>
      obtain ⟨b, r, hbr, rfl, hb⟩ := strEnd_eq_some.mp hend
      rw [hend] at h
      simp only at h
      by_cases hmax : p.t.length < jsonMaxTokens
      · rw [if_pos hmax] at h
        obtain ⟨rfl, rfl⟩ := Prod.mk.inj (Except.ok.inj h)
        exact ⟨b, r, hbr, hb, hmax, rfl, rfl⟩
      · rw [if_neg hmax] at h; exact absurd h (by simp)
  · rintro ⟨b, r, hbr, hb, hmax, rfl, rfl⟩
    rw [hbr, strEnd_of_chars hb]
    simp only [if_pos hmax]
    rfl

theorem string_error {e : Stop} (hR : p.Room) (h : string p = .error e) : e = .refused := by
  rw [string_eq hR] at h
  split at h
  · split at h
    · exact absurd h (by simp)
    · exact (Except.error.inj h).symm
  · exact (Except.error.inj h).symm

/-- The name of a member is taken exactly when a string, white space and a colon
are left. -/
theorem key_eq_ok {q : P} (hR : p.Room) :
    key p = .ok q ↔ ∃ b w r, p.rest = quote :: (b ++ quote :: (w ++ colon :: r)) ∧
      Chars (strchr escapes) b ∧ Ws w ∧ p.t.length < jsonMaxTokens ∧
      q = p.emit (b.length + 2 + w.length + 1) (p.strTok b.length) := by
  constructor
  · intro h
    unfold key at h
    cases hr : p.rest with
    | nil =>
      rw [if_pos (P.n_le_i.mpr hr)] at h
      exact absurd h (by simp)
    | cons c l =>
      rw [if_neg (by rw [P.n_le_i, hr]; simp), P.peek_zero hr, Except.ok_bind] at h
      by_cases hc : c = quote
      · rw [if_neg (by simpa using hc), Except.bind_eq_ok_iff] at h
        obtain ⟨⟨t, p'⟩, hs, h⟩ := h
        obtain ⟨b, r, hbr, hb, hmax, rfl, rfl⟩ := (string_eq_ok hR).mp hs
        rw [hr, drop_one, tail_cons] at hbr
        simp only [ws_eq, Except.ok_bind] at h
        have hrest : (p.emit (b.length + 2) (p.strTok b.length)).rest = r := by
          rw [P.rest_emit, hr, hbr, hc]
          simp [drop_append]
        -- the colon, behind any white space
        cases hd : r.dropWhile isWs with
        | nil =>
          rw [if_pos (P.n_le_i.mpr (by rw [P.rest_pastWs, hrest, hd]))] at h
          exact absurd h (by simp)
        | cons e r' =>
          have hpast : (p.emit (b.length + 2) (p.strTok b.length)).pastWs.rest = e :: r' := by
            rw [P.rest_pastWs, hrest, hd]
          rw [if_neg (by rw [P.n_le_i, hpast]; simp), P.peek_zero hpast, Except.ok_bind] at h
          by_cases he : e = colon
          · rw [if_neg (by simpa using he)] at h
            refine ⟨b, r.takeWhile isWs, r', ?_, hb, ws_takeWhile r, hmax, ?_⟩
            · rw [hc, hbr, ← he, ← hd, takeWhile_append_dropWhile]
            · rw [← Except.ok.inj h, P.pastWs, hrest, emit_adv, emit_adv]
          · rw [if_pos he] at h; exact absurd h (by simp)
      · rw [if_pos hc] at h; exact absurd h (by simp)
  · rintro ⟨b, w, r, hr, hb, hw, hmax, rfl⟩
    have hs : string p = .ok (p.t.length, p.emit (b.length + 2) (p.strTok b.length)) :=
      (string_eq_ok hR).mpr ⟨b, _, by rw [hr]; rfl, hb, hmax, rfl, rfl⟩
    have hrest : (p.emit (b.length + 2) (p.strTok b.length)).rest = w ++ colon :: r := by
      rw [P.rest_emit, hr]
      simp [drop_append]
    have hpast := P.pastWs_eq hrest hw (by simp; decide)
    have hcolon : (p.emit (b.length + 2) (p.strTok b.length)).pastWs.rest = colon :: r := by
      rw [hpast, P.rest_adv, hrest, drop_left]
    unfold key
    rw [if_neg (by rw [P.n_le_i, hr]; simp), P.peek_zero hr, Except.ok_bind, if_neg (by simp), hs]
    simp only [Except.ok_bind, ws_eq]
    rw [if_neg (by rw [P.n_le_i, hcolon]; simp), P.peek_zero hcolon, Except.ok_bind,
      if_neg (by simp), hpast, emit_adv, emit_adv]

theorem key_error {e : Stop} (hR : p.Room) (h : key p = .error e) : e = .refused := by
  unfold key at h
  cases hr : p.rest with
  | nil =>
    rw [if_pos (P.n_le_i.mpr hr)] at h
    exact (Except.error.inj h).symm
  | cons c l =>
    rw [if_neg (by rw [P.n_le_i, hr]; simp), P.peek_zero hr, Except.ok_bind] at h
    split at h
    · exact (Except.error.inj h).symm
    · rcases Except.bind_eq_error_iff.mp h with h | ⟨⟨t, p'⟩, -, h⟩
      · exact string_error hR h
      · simp only [ws_eq, Except.ok_bind] at h
        cases hd : p'.pastWs.rest with
        | nil =>
          rw [if_pos (P.n_le_i.mpr hd)] at h
          exact (Except.error.inj h).symm
        | cons e r' =>
          rw [if_neg (by rw [P.n_le_i, hd]; simp), P.peek_zero hd, Except.ok_bind] at h
          split at h
          · exact (Except.error.inj h).symm
          · exact absurd h (by simp)

theorem separator_true (c : UInt8) (p : P) : separator true c p = .ok p := rfl

theorem separator_false_eq_ok {q : P} :
    separator false c p = .ok q ↔ c = comma ∧ q = (p.adv 1).pastWs := by
  unfold separator
  by_cases hc : c = comma
  · simp only [Bool.false_eq_true, if_false, hc, ne_eq, not_true_eq_false, ws_eq, Except.ok.injEq,
      true_and, eq_comm]
  · simp [hc]

theorem separator_error {first : Bool} {e : Stop}
    (h : separator first c p = .error e) : e = .refused := by
  unfold separator at h
  split at h
  · exact absurd h (by simp)
  · split at h
    · exact (Except.error.inj h).symm
    · rw [ws_eq] at h; exact absurd h (by simp)

section Items

variable {isObj : Bool} {val : P → Except Stop (ℕ × P)} {k : ℕ} {first : Bool} {p : P}

theorem items_nil (h : p.pastWs.rest = []) :
    items isObj val (k + 1) first p = .error .refused := by
  rw [items, ws_eq, Except.ok_bind, if_pos (P.n_le_i.mpr h)]

theorem items_close {l : Bytes} (h : p.pastWs.rest = closing isObj :: l) :
    items isObj val (k + 1) first p = .ok (p.pastWs.adv 1) := by
  rw [items, ws_eq, Except.ok_bind, if_neg (by rw [P.n_le_i, h]; simp), P.peek_zero h,
    Except.ok_bind, if_pos rfl]

theorem items_item {c : UInt8} {l : Bytes} (h : p.pastWs.rest = c :: l) (hc : c ≠ closing isObj) :
    items isObj val (k + 1) first p = (do
      let p ← separator first c p.pastWs
      let p ← item isObj val p
      items isObj val k false p) := by
  rw [items, ws_eq, Except.ok_bind, if_neg (by rw [P.n_le_i, h]; simp), P.peek_zero h,
    Except.ok_bind, if_neg hc]

end Items

theorem value_nil {d : ℕ} (h : p.pastWs.rest = []) :
    value (d + 1) p = .error .refused := by
  rw [value, ws_eq, Except.ok_bind, if_pos (P.n_le_i.mpr h)]

theorem value_cons {d : ℕ} (h : p.pastWs.rest = c :: l) :
    value (d + 1) p = branch (value d) c p.pastWs := by
  rw [value, ws_eq, Except.ok_bind, if_neg (by rw [P.n_le_i, h]; simp), P.peek_zero h,
    Except.ok_bind]

end Hassmic.Json
