import Hassmic.Json.Safe

/-!
# What the JSON parser accepts

The parser is compared with the grammar of `Hassmic.Json.Grammar`.  Two things
about it are its own.  A NUL ends the document, so the grammar is about the
bytes before the first one.  And `strchr` finds the NUL that ends the set it
searches, so a NUL right behind a character of a number, or behind a backslash,
is taken for one more; `Clean` keeps the text away from that.

## Main results

* `value_sound`, `value_complete` — the descent against the grammar.
* `jsonParse_iff` — the whole document.
-/

namespace Hassmic.Json

open Byte List

/-! ### The text before the first NUL -/

/-- `l` is what is left of the text before its first NUL and `r₀` what comes
from there on; when there is a NUL, it follows neither a character of a number
nor a backslash. -/
structure Clean (l r₀ : Bytes) : Prop where
  nul_free : nul ∉ l
  tail : r₀ = [] ∨ (∃ r, r₀ = nul :: r) ∧ ∀ c ∈ l.getLast?, isNumeral c = false ∧ c ≠ backslash

namespace Clean

variable {l r₀ : Bytes}

theorem of_append {v : Bytes} (h : Clean (v ++ l) r₀) : Clean l r₀ := by
  refine ⟨fun hm => h.nul_free (mem_append_right v hm), h.tail.imp_right ?_⟩
  rintro ⟨hr, hlast⟩
  refine ⟨hr, fun c hc => hlast c ?_⟩
  rw [getLast?_append, Option.mem_def.mp hc]
  rfl

/-- A byte that is not NUL stands before the first NUL. -/
theorem cons_eq {c : UInt8} {r : Bytes} (h : Clean l r₀) (hc : c ≠ nul) (heq : c :: r = l ++ r₀) :
    ∃ l', l = c :: l' ∧ r = l' ++ r₀ := by
  cases l with
  | nil =>
    rw [nil_append] at heq
    rcases h.tail with h0 | ⟨⟨r', hr'⟩, -⟩
    · rw [h0] at heq; exact absurd heq (by simp)
    · rw [hr'] at heq
      exact absurd (List.cons.inj heq).1 hc
  | cons e l =>
    obtain ⟨rfl, hr⟩ := List.cons.inj heq
    exact ⟨l, rfl, hr⟩

theorem head_tail (h : Clean l r₀) : ∀ c ∈ r₀.head?, c = nul := by
  rcases h.tail with rfl | ⟨⟨r, rfl⟩, -⟩
  · simp
  · simp

/-- White space before the first NUL. -/
theorem dropWhile_ws (h : Clean l r₀) :
    (l ++ r₀).dropWhile isWs = l.dropWhile isWs ++ r₀ := by
  rw [dropWhile_append]
  split
  · next hempty =>
    rw [List.isEmpty_iff.mp hempty, nil_append]
    cases r₀ with
    | nil => rfl
    | cons c r =>
      rw [h.head_tail c (by simp), dropWhile_cons_of_neg (by decide)]
  · rfl

/-- The characters of a string before the first NUL are those of the grammar. -/
theorem chars {b : Bytes} (hb : Chars (strchr escapes) b) : ∀ {l r : Bytes}, Clean l r₀ →
    b ++ quote :: r = l ++ r₀ →
    ∃ l', l = b ++ quote :: l' ∧ r = l' ++ r₀ ∧ Chars isEscape b := by
  induction hb with
  | nil =>
    intro l r h heq
    obtain ⟨l', hl, hr⟩ := h.cons_eq (by decide) heq
    exact ⟨l', hl, hr, .nil⟩
  | @unescaped c b hlow hq hbs _ ih =>
    intro l r h heq
    have hnul : c ≠ nul := by rintro rfl; exact hlow (by decide)
    obtain ⟨l', rfl, hr⟩ := h.cons_eq hnul heq
    obtain ⟨l'', rfl, hr', hb'⟩ := ih (of_append (v := [c]) h) hr
    exact ⟨l'', rfl, hr', .unescaped hlow hq hbs hb'⟩
  | @escaped e b hu he _ ih =>
    intro l r h heq
    obtain ⟨l', rfl, hr⟩ := h.cons_eq (by decide) heq
    have h' := of_append (v := [backslash]) h
    -- the NUL may not stand right behind this backslash
    have hnul : e ≠ nul := by
      rintro rfl
      cases l' with
      | nil =>
        rcases h.tail with h0 | ⟨-, hlast⟩
        · rw [h0] at hr; exact absurd hr (by simp)
        · exact (hlast backslash (by simp)).2 rfl
      | cons c l' =>
        have : c = nul := (List.cons.inj hr).1.symm
        exact h'.nul_free (by simp [this])
    obtain ⟨l'', rfl, hr'⟩ := h'.cons_eq hnul hr
    obtain ⟨l₃, rfl, hr₃, hb'⟩ := ih (of_append (v := [e]) h') hr'
    refine ⟨l₃, rfl, hr₃, .escaped hu ?_ hb'⟩
    have hmem : e ∈ escapes ++ [nul] := by simpa [strchr] using he
    rcases mem_append.mp hmem with h | h
    · simpa [isEscape] using h
    · exact absurd (mem_singleton.mp h) hnul
  | @unicode a b c d l₀ hx _ ih =>
    intro l r h heq
    have hhex : ∀ e, isHex e = true → e ≠ nul := by
      rintro e he rfl; exact absurd he (by decide)
    simp only [Bool.and_eq_true] at hx
    obtain ⟨l₁, rfl, h₁⟩ := h.cons_eq (by decide) heq
    have c₁ := of_append (v := [backslash]) h
    obtain ⟨l₂, rfl, h₂⟩ := c₁.cons_eq (by decide) h₁
    have c₂ := of_append (v := [0x75]) c₁
    obtain ⟨l₃, rfl, h₃⟩ := c₂.cons_eq (hhex a hx.1.1.1) h₂
    have c₃ := of_append (v := [a]) c₂
    obtain ⟨l₄, rfl, h₄⟩ := c₃.cons_eq (hhex b hx.1.1.2) h₃
    have c₄ := of_append (v := [b]) c₃
    obtain ⟨l₅, rfl, h₅⟩ := c₄.cons_eq (hhex c hx.1.2) h₄
    have c₅ := of_append (v := [c]) c₄
    obtain ⟨l₆, rfl, h₆⟩ := c₅.cons_eq (hhex d hx.2) h₅
    obtain ⟨l', rfl, hr', hb'⟩ := ih (of_append (v := [d]) c₅) h₆
    exact ⟨l', rfl, hr', .unicode (by simp only [Bool.and_eq_true]; exact hx) hb'⟩

/-- Away from NULs `strchr` looks for the numerals alone. -/
theorem takeWhile_strchr (hnul : nul ∉ l) :
    l.takeWhile (strchr numerals) = l.takeWhile isNumeral := by
  induction l with
  | nil => rfl
  | cons c l ih =>
    have hc : strchr numerals c = isNumeral c := by
      have : c ≠ nul := by rintro rfl; exact hnul (by simp)
      simp [strchr, isNumeral, this]
    rw [takeWhile_cons, takeWhile_cons, hc, ih (fun h => hnul (mem_cons_of_mem c h))]

/-- A number before the first NUL ends there. -/
theorem takeWhile_numerals (h : Clean l r₀) (hne : l ≠ []) :
    (l ++ r₀).takeWhile (strchr numerals) = l.takeWhile isNumeral := by
  rw [takeWhile_append, takeWhile_strchr h.nul_free]
  split
  · next hall =>
    -- all of it is a number, so no NUL follows
    have hself : l.takeWhile isNumeral = l := (List.takeWhile_prefix isNumeral).eq_of_length hall
    rcases h.tail with rfl | ⟨-, hlast⟩
    · rw [hself]; simp
    · have hmem : l.getLast hne ∈ l.takeWhile isNumeral := by
        rw [hself]; exact getLast_mem hne
      have hnum := mem_takeWhile_imp hmem
      have hno := (hlast (l.getLast hne) (by simp [getLast?_eq_some_getLast hne])).1
      exact absurd hnum (by simp [hno])
  · rfl

end Clean

/-! ### Soundness -/

/-- An item of a container: a value, in an object a member. -/
def Item (isObj : Bool) (V : ℕ → Bytes → Prop) : ℕ → Bytes → Prop := bif isObj then Member V else V

/-- What `val` reads is white space and one of `V`. -/
def Sound (r₀ : Bytes) (V : ℕ → Bytes → Prop) (val : P → Except Stop (ℕ × P)) : Prop :=
  ∀ {p q : P} {t : ℕ} {l : Bytes}, p.Room → p.rest = l ++ r₀ → Clean l r₀ → val p = .ok (t, q) →
    ∃ a v l' n, l = a ++ (v ++ l') ∧ Ws a ∧ V n v ∧ q.rest = l' ++ r₀ ∧ q.t.length = p.t.length + n

variable {V : ℕ → Bytes → Prop} {isObj : Bool} {l r₀ v r : Bytes} {p : P}
  {val : P → Except Stop (ℕ × P)} {n : ℕ}
  {c : UInt8}

theorem item_sound (hval : Sound r₀ V val) {q : P} (hR : p.Room)
    (hrest : p.rest = l ++ r₀) (hcl : Clean l r₀) (h : item isObj val p = .ok q) :
    ∃ a v l' n, l = a ++ (v ++ l') ∧ Ws a ∧ Item isObj V n v ∧ q.rest = l' ++ r₀ ∧
      q.t.length = p.t.length + n := by
  obtain ⟨q₁, hq₁, h⟩ := Except.bind_eq_ok_iff.mp h
  obtain ⟨⟨t, q₂⟩, hq₂, h⟩ := Except.bind_eq_ok_iff.mp h
  obtain rfl := Except.ok.inj h
  cases isObj with
  | false =>
    obtain rfl := Except.ok.inj hq₁
    exact hval hR hrest hcl hq₂
  | true =>
    obtain ⟨b, w, r, hr, hb, hw, hmax, rfl⟩ := (key_eq_ok hR).mp hq₁
    -- the name, the white space behind it and the colon all stand before the first NUL
    rw [hrest] at hr
    obtain ⟨l₁, rfl, h₁⟩ := hcl.cons_eq (by decide) hr.symm
    obtain ⟨l₂, rfl, h₂, hb'⟩ := Clean.chars hb (Clean.of_append (v := [quote]) hcl) h₁
    have hcl₂ : Clean l₂ r₀ := Clean.of_append (v := quote :: (b ++ [quote])) (by simpa using hcl)
    have hd := hcl₂.dropWhile_ws
    have hcolon : (w ++ colon :: r).dropWhile isWs = colon :: r := by
      rw [dropWhile_append_of_pos hw, dropWhile_cons_of_neg (by decide)]
    rw [← h₂, hcolon] at hd
    have hsplit : l₂ = l₂.takeWhile isWs ++ l₂.dropWhile isWs :=
      (takeWhile_append_dropWhile).symm
    have hcl₃ : Clean (l₂.dropWhile isWs) r₀ :=
      Clean.of_append (v := l₂.takeWhile isWs) (by rw [← hsplit]; exact hcl₂)
    obtain ⟨l₃, hl₃, h₃⟩ := hcl₃.cons_eq (by decide) hd
    have hrest' : (p.emit (b.length + 2 + w.length + 1) (p.strTok b.length)).rest = l₃ ++ r₀ := by
      rw [P.rest_emit, hrest, hr, ← h₃]
      have : quote :: (b ++ quote :: (w ++ colon :: r)) =
          (quote :: b ++ quote :: w ++ [colon]) ++ r := by
        simp
      rw [this]
      exact drop_left' (by simp; omega)
    rw [hl₃] at hcl₃ hsplit
    obtain ⟨a, v, l', n, hl', ha, hv, hq, hn⟩ :=
      hval (P.room_emit hR hmax) hrest' (Clean.of_append (v := [colon]) hcl₃) hq₂
    refine ⟨[], quote :: b ++ quote :: l₂.takeWhile isWs ++ colon :: a ++ v, l', n + 1, ?_, ?_,
      Member.mk hb' (ws_takeWhile l₂) ha hv, hq, ?_⟩
    · rw [hl'] at hsplit
      conv_lhs => rw [hsplit]
      simp
    · intro c hc; simp at hc
    · rw [hn, P.t_emit]; simp; omega

/-- What is left of a container's items behind the first: white space, or a comma
and more items. -/
def More (Item : ℕ → Bytes → Prop) (n : ℕ) (l : Bytes) : Prop :=
  (Ws l ∧ n = 0) ∨ ∃ a r, l = a ++ comma :: r ∧ Ws a ∧ List1 Item n r

theorem List1.of_more {Item : ℕ → Bytes → Prop} {a : Bytes} {m : ℕ} (ha : Ws a)
    (hv : Item n v) (hl : More Item m l) : List1 Item (n + m) (a ++ (v ++ l)) := by
  rcases hl with ⟨hl, rfl⟩ | ⟨b, r, rfl, hb, hr⟩
  · have := List1.one ha hv hl
    rwa [append_assoc] at this
  · have := List1.more ha hv hb hr
    simpa using this

theorem Ws.append {a b : Bytes} (ha : Ws a) (hb : Ws b) : Ws (a ++ b) := by
  intro c hc
  rcases mem_append.mp hc with h | h
  · exact ha c h
  · exact hb c h

/-- The loop over a container's items reads what the grammar puts between its
brackets. -/
theorem items_sound (hsafe : Safe val) (hval : Sound r₀ V val) :
    ∀ (k : ℕ) (first : Bool) {p q : P} {l : Bytes}, p.Room → p.rest = l ++ r₀ → Clean l r₀ →
    items isObj val k first p = .ok q →
    ∃ b l' n, l = b ++ closing isObj :: l' ∧ q.rest = l' ++ r₀ ∧ q.t.length = p.t.length + n ∧
      (if first then (Ws b ∧ n = 0) ∨ List1 (Item isObj V) n b else More (Item isObj V) n b) := by
  intro k
  induction k with
  | zero => intro first p q l _ _ _ h; exact absurd h (by simp [items])
  | succ k ih =>
    intro first p q l hR hrest hcl h
    have hsplit : l = l.takeWhile isWs ++ l.dropWhile isWs := (takeWhile_append_dropWhile).symm
    have hpast : p.pastWs.rest = l.dropWhile isWs ++ r₀ := by
      rw [P.rest_pastWs, hrest, hcl.dropWhile_ws]
    have hcl₁ : Clean (l.dropWhile isWs) r₀ :=
      Clean.of_append (v := l.takeWhile isWs) (by rw [← hsplit]; exact hcl)
    cases hr : p.pastWs.rest with
    | nil => rw [items_nil hr] at h; exact absurd h (by simp)
    | cons c r =>
      by_cases hc : c = closing isObj
      · -- the closing bracket
        rw [hc] at hr
        rw [items_close hr] at h
        obtain rfl := Except.ok.inj h
        have hnul : closing isObj ≠ nul := by cases isObj <;> decide
        obtain ⟨l', hl', hr'⟩ := hcl₁.cons_eq hnul (hr.symm.trans hpast)
        refine ⟨l.takeWhile isWs, l', 0, by rw [← hl']; exact hsplit, ?_, rfl, ?_⟩
        · rw [P.rest_adv, hr, hr']; rfl
        · cases first with
          | true => exact Or.inl ⟨ws_takeWhile l, rfl⟩
          | false => exact Or.inl ⟨ws_takeWhile l, rfl⟩
      · -- one more item
        rw [items_item hr hc] at h
        obtain ⟨q₁, hq₁, h⟩ := Except.bind_eq_ok_iff.mp h
        obtain ⟨q₂, hq₂, h⟩ := Except.bind_eq_ok_iff.mp h
        obtain ⟨-, -, ht₁, hR₁⟩ := separator_moves hq₁
        have hR₂ := ((item_safe hsafe isObj (hR₁ hR)).2 q₂ hq₂).room
        -- where the item begins, `w` being the separator before it
        have hsep : ∃ w l₁, l = w ++ l₁ ∧ q₁.rest = l₁ ++ r₀ ∧
            (if first then Ws w else ∃ a b, w = a ++ comma :: b ∧ Ws a ∧ Ws b) := by
          cases first with
          | true =>
            obtain rfl := Except.ok.inj hq₁
            exact ⟨l.takeWhile isWs, l.dropWhile isWs, hsplit, hpast, ws_takeWhile l⟩
          | false =>
            obtain ⟨rfl, rfl⟩ := separator_false_eq_ok.mp hq₁
            obtain ⟨l', hl', hr'⟩ := hcl₁.cons_eq (by decide) (hr.symm.trans hpast)
            have hcl' : Clean l' r₀ :=
              Clean.of_append (v := [comma]) (by rw [hl'] at hcl₁; exact hcl₁)
            refine ⟨l.takeWhile isWs ++ comma :: l'.takeWhile isWs, l'.dropWhile isWs, ?_, ?_,
              _, _, rfl, ws_takeWhile l, ws_takeWhile l'⟩
            · conv_lhs => rw [hsplit, hl', ← takeWhile_append_dropWhile (p := isWs) (l := l')]
              simp
            · rw [P.rest_pastWs, P.rest_adv, hr, hr', drop_one, tail_cons,
                hcl'.dropWhile_ws]
        obtain ⟨w, l₁, rfl, hrest₁, hw⟩ := hsep
        have hcl₂ : Clean l₁ r₀ := Clean.of_append hcl
        obtain ⟨a, v, l₂, n, rfl, ha, hv, hrest₂, hn⟩ := item_sound hval (hR₁ hR) hrest₁ hcl₂ hq₂
        have hcl₃ : Clean l₂ r₀ := Clean.of_append (v := a ++ v) (by simpa using hcl₂)
        obtain ⟨b, l', m, rfl, hq, hm, hmore⟩ := ih false hR₂ hrest₂ hcl₃ h
        refine ⟨w ++ (a ++ (v ++ b)), l', n + m, by simp,
          hq, by rw [hm, hn, ht₁]; exact (Nat.add_assoc _ _ _), ?_⟩
        cases first with
        | true =>
          refine Or.inr ?_
          have := List1.of_more (Ws.append hw ha) hv hmore
          rwa [append_assoc] at this
        | false =>
          obtain ⟨x, y, rfl, hx, hy⟩ := hw
          refine Or.inr ⟨x, y ++ (a ++ (v ++ b)), by simp, hx, ?_⟩
          have := List1.of_more (Ws.append hy ha) hv hmore
          rwa [append_assoc] at this

/-- Bytes other than NUL that the text starts with stand before the first NUL. -/
theorem Clean.append_eq : ∀ {w l r : Bytes}, Clean l r₀ → nul ∉ w → w ++ r = l ++ r₀ →
    ∃ l', l = w ++ l' ∧ r = l' ++ r₀ := by
  intro w
  induction w with
  | nil => intro l r _ _ heq; exact ⟨l, rfl, heq⟩
  | cons c w ih =>
    intro l r hcl hnul heq
    obtain ⟨l₁, rfl, h₁⟩ := hcl.cons_eq (fun h => hnul (by simp [h])) heq
    obtain ⟨l', rfl, hr⟩ := ih (Clean.of_append (v := [c]) hcl)
      (fun h => hnul (mem_cons_of_mem c h)) h₁
    exact ⟨l', rfl, hr⟩

theorem nul_notMem_words : ∀ {w : Bytes × JType}, w ∈ words → nul ∉ w.1 := by decide

/-- White space is in no number; the first character of a number is one of its own, and of nothing
else. -/
theorem char_facts : (∀ {c : UInt8}, isWs c = true → strchr numerals c = false) ∧
    ∀ {c : UInt8}, (isDigit c ∨ c = minus) → isNumeral c = true ∧ (isWs c = false ∧ c ≠ rbracket) ∧
      c ≠ quote ∧ ¬ (c = lbrace ∨ c = lbracket) := by
  decide +kernel

theorem isNumeral_of_start {c : UInt8} (h : isDigit c ∨ c = minus) : isNumeral c = true :=
  (char_facts.2 h).1

/-- What a value of the source begins with decides its production. -/
theorem branch_sound (hsafe : Safe val) (hval : Sound r₀ V val) {q : P} {t : ℕ}
    (hR : p.Room) (hrest : p.rest = l ++ r₀) (hcl : Clean l r₀) (hr : p.rest = c :: r)
    (h : branch val c p = .ok (t, q)) :
    ∃ v l' n, l = v ++ l' ∧ ValueOf V n v ∧ q.rest = l' ++ r₀ ∧ q.t.length = p.t.length + n := by
  unfold branch at h
  -- a string
  by_cases hq : c = quote
  · rw [if_pos hq] at h
    obtain ⟨b, r', hb, hch, hmax, rfl, rfl⟩ := (string_eq_ok hR).mp h
    obtain ⟨l₁, rfl, h₁⟩ := hcl.cons_eq (by rw [hq]; decide) (hr.symm.trans hrest)
    rw [hr, drop_one, tail_cons, h₁] at hb
    obtain ⟨l', rfl, hr', hch'⟩ := Clean.chars hch (Clean.of_append (v := [c]) hcl) hb.symm
    refine ⟨quote :: b ++ [quote], l', 1, by rw [hq]; simp, .string hch', ?_, by simp⟩
    rw [P.rest_emit, hrest]
    have : c :: (b ++ quote :: l') ++ r₀ = (c :: b ++ [quote]) ++ (l' ++ r₀) := by simp
    rw [this]
    exact drop_left' (by simp)
  rw [if_neg hq] at h
  -- an object or an array
  by_cases hb : c = lbrace ∨ c = lbracket
  · rw [if_pos hb, container_eq hR] at h
    by_cases hmax : p.t.length < jsonMaxTokens
    · rw [if_pos hmax] at h
      obtain ⟨q', hq', h⟩ := Except.bind_eq_ok_iff.mp h
      obtain ⟨rfl, rfl⟩ := Prod.mk.inj (Except.ok.inj h)
      have hnul : c ≠ nul := by rcases hb with rfl | rfl <;> decide
      obtain ⟨l₁, rfl, h₁⟩ := hcl.cons_eq hnul (hr.symm.trans hrest)
      have hin : (p.inside (c = lbrace)).rest = l₁ ++ r₀ := by
        rw [P.inside, P.rest_emit, hr, h₁]; rfl
      obtain ⟨b, l', n, rfl, hrest', hn, hbody⟩ := items_sound hsafe hval _ true
        (P.room_emit hR hmax) hin (Clean.of_append (v := [c]) hcl) hq'
      have hlen : q'.t.length = p.t.length + (n + 1) := by
        rw [hn]; simp; omega
      refine ⟨c :: b ++ [closing (c = lbrace)], l', n + 1, by simp, ?_, hrest', by simp [hlen]⟩
      simp only [if_true] at hbody
      rcases hb with rfl | rfl
      · rcases hbody with ⟨hws, rfl⟩ | hl
        · exact .emptyObject hws
        · exact .object hl
      · rcases hbody with ⟨hws, rfl⟩ | hl
        · exact .emptyArray hws
        · exact .array hl
    · rw [if_neg hmax] at h
      exact absurd h (by simp)
  rw [if_neg hb] at h
  -- a number
  by_cases hd : isDigit c ∨ c = minus
  · rw [if_pos hd, number_eq hR] at h
    by_cases hmax : p.t.length < jsonMaxTokens
    · rw [if_pos hmax] at h
      obtain ⟨rfl, rfl⟩ := Prod.mk.inj (Except.ok.inj h)
      have hnul : c ≠ nul := by
        rintro rfl; revert hd; decide
      obtain ⟨l₁, rfl, h₁⟩ := hcl.cons_eq hnul (hr.symm.trans hrest)
      have hv : (c :: l₁).takeWhile isNumeral = c :: l₁.takeWhile isNumeral :=
        takeWhile_cons_of_pos (isNumeral_of_start hd)
      refine ⟨c :: l₁.takeWhile isNumeral, l₁.dropWhile isNumeral, 1, ?_,
        .number hd fun e he => mem_takeWhile_imp he, ?_, by simp⟩
      · rw [cons_append, takeWhile_append_dropWhile]
      · rw [P.rest_emit, hrest, hcl.takeWhile_numerals (by simp), hv]
        have : c :: l₁ ++ r₀ = (c :: l₁.takeWhile isNumeral) ++ (l₁.dropWhile isNumeral ++ r₀) := by
          simp [← append_assoc, takeWhile_append_dropWhile]
        rw [this]
        exact drop_left
    · rw [if_neg hmax] at h
      exact absurd h (by simp)
  rw [if_neg hd, word_eq hR (by rw [hr]; simp)] at h
  -- one of the three words
  cases hw : words.find? fun w => decide (w.1 <+: p.rest) with
  | none => rw [hw] at h; exact absurd h (by simp)
  | some w =>
    rw [hw] at h
    by_cases hmax : p.t.length < jsonMaxTokens
    · simp only [if_pos hmax] at h
      obtain ⟨rfl, rfl⟩ := Prod.mk.inj (Except.ok.inj h)
      have hmem := mem_of_find?_eq_some hw
      have hpre : w.1 <+: p.rest := by simpa using find?_some hw
      obtain ⟨r', hr'⟩ := hpre
      obtain ⟨l', rfl, hr''⟩ := hcl.append_eq (nul_notMem_words hmem) (hr'.trans hrest)
      refine ⟨w.1, l', 1, rfl, .literal hmem, ?_, by simp⟩
      rw [P.rest_emit, hrest, append_assoc]
      exact drop_left
    · simp only [if_neg hmax] at h
      exact absurd h (by simp)

theorem value_succ_sound {d : ℕ}
    (hval : Sound r₀ V (value d)) : Sound r₀ (ValueOf V) (value (d + 1)) := by
  intro p q t l hR hrest hcl h
  have hsplit : l = l.takeWhile isWs ++ l.dropWhile isWs := (takeWhile_append_dropWhile).symm
  have hpast : p.pastWs.rest = l.dropWhile isWs ++ r₀ := by
    rw [P.rest_pastWs, hrest, hcl.dropWhile_ws]
  have hcl₁ : Clean (l.dropWhile isWs) r₀ :=
    Clean.of_append (v := l.takeWhile isWs) (by rw [← hsplit]; exact hcl)
  cases hr : p.pastWs.rest with
  | nil => rw [value_nil hr] at h; exact absurd h (by simp)
  | cons c r =>
    rw [value_cons hr] at h
    obtain ⟨v, l', n, hl', hv, hq, hn⟩ :=
      branch_sound (value_safe d) hval (P.room_pastWs.mpr hR) hpast hcl₁ hr h
    exact ⟨l.takeWhile isWs, v, l', n, by rw [← hl']; exact hsplit, ws_takeWhile l, hv, hq, hn⟩

/-- **What the descent accepts is in the grammar**, as far as the first NUL. -/
theorem value_sound (r₀ : Bytes) : ∀ d : ℕ, Sound r₀ (Value d) (value (d + 1)) := by
  intro d
  induction d with
  | zero =>
    refine value_succ_sound fun _ _ _ h => ?_
    rw [value, ws_eq, Except.ok_bind] at h
    exact absurd h (by simp)
  | succ d ih => exact value_succ_sound ih

/-! ### Completeness -/

theorem Chars.mono {esc esc' : UInt8 → Bool} (h : ∀ e, esc e = true → esc' e = true)
    (hl : Chars esc l) : Chars esc' l := by
  induction hl with
  | nil => exact .nil
  | unescaped hlow hq hb _ ih => exact .unescaped hlow hq hb ih
  | escaped hu he _ ih => exact .escaped hu (h _ he) ih
  | unicode hx _ ih => exact .unicode hx ih

theorem Chars.strchr (hl : Chars isEscape l) : Chars (strchr escapes) l := by
  refine hl.mono fun e he => ?_
  simp only [isEscape, contains_iff_mem] at he
  simp [Json.strchr, he]

/-- A number at the end of `v` does not go on in `r`. -/
def Ends (v r : Bytes) : Prop :=
  (∃ c ∈ v.getLast?, isNumeral c = true) → ∀ c ∈ r.head?, strchr numerals c = false

theorem ends_of_head (h : ∀ c ∈ r.head?, strchr numerals c = false) : Ends v r :=
  fun _ => h

theorem strchr_numerals_of_ws {c : UInt8} (h : isWs c = true) :
    strchr numerals c = false := char_facts.1 h

theorem start_not_ws {c : UInt8} (h : isDigit c ∨ c = minus) : isWs c = false ∧ c ≠ rbracket :=
  (char_facts.2 h).2.1

theorem words_head : ∀ {w : Bytes × JType}, w ∈ words →
    ∃ c l, w.1 = c :: l ∧ isWs c = false ∧ c ≠ rbracket := by
  intro w hw
  simp only [words, mem_cons, not_mem_nil, or_false] at hw
  rcases hw with rfl | rfl | rfl
  · exact ⟨_, _, rfl, by decide, by decide⟩
  · exact ⟨_, _, rfl, by decide, by decide⟩
  · exact ⟨_, _, rfl, by decide, by decide⟩

/-- White space and then a comma or a closing bracket end every value. -/
theorem ends_ws {b : Bytes} (hb : Ws b) (hc : strchr numerals c = false) :
    Ends v (b ++ c :: r) := by
  refine ends_of_head fun e he => ?_
  cases b with
  | nil =>
    obtain rfl : c = e := by simpa using he
    exact hc
  | cons x b =>
    obtain rfl : x = e := by simpa using he
    exact strchr_numerals_of_ws (hb x (by simp))

/-- `val` reads white space and one of `V`, if there is room for its tokens. -/
def Complete (V : ℕ → Bytes → Prop) (val : P → Except Stop (ℕ × P)) : Prop :=
  ∀ {n : ℕ} {v : Bytes}, V n v → ∀ {p : P} {a r : Bytes}, p.Room → p.rest = a ++ (v ++ r) → Ws a →
    Ends v r → p.t.length + n ≤ jsonMaxTokens →
    ∃ t q, val p = .ok (t, q) ∧ q.rest = r ∧ q.t.length = p.t.length + n

/-- The first byte of a value is not white space, nor does it close a container. -/
theorem ValueOf.head (h : ValueOf V n v) :
    ∃ c l, v = c :: l ∧ isWs c = false ∧ c ≠ rbracket ∧ 0 < n := by
  cases h with
  | string _ => exact ⟨_, _, rfl, by decide, by decide, by omega⟩
  | number hc _ => exact ⟨_, _, rfl, start_not_ws hc |>.1, start_not_ws hc |>.2, by omega⟩
  | literal hw =>
    obtain ⟨c, l, hl, h₁, h₂⟩ := words_head hw
    exact ⟨c, l, hl, h₁, h₂, by omega⟩
  | emptyArray _ => exact ⟨_, _, rfl, by decide, by decide, by omega⟩
  | array _ => exact ⟨_, _, rfl, by decide, by decide, by omega⟩
  | emptyObject _ => exact ⟨_, _, rfl, by decide, by decide, by omega⟩
  | object _ => exact ⟨_, _, rfl, by decide, by decide, by omega⟩

/-- So is the first byte of an item. -/
def Heads (isObj : Bool) (V : ℕ → Bytes → Prop) : Prop :=
  ∀ {n : ℕ} {v : Bytes}, Item isObj V n v →
    ∃ c l, v = c :: l ∧ isWs c = false ∧ c ≠ closing isObj

theorem item_complete
    (hval : Complete V val) (hv : Item isObj V n v) (hR : p.Room) (hrest : p.rest = v ++ r)
    (hends : Ends v r) (hmax : p.t.length + n ≤ jsonMaxTokens) :
    ∃ q, item isObj val p = .ok q ∧ q.rest = r ∧ q.t.length = p.t.length + n := by
  cases isObj with
  | false =>
    obtain ⟨t, q, hq, hrest', hn⟩ := hval hv hR (a := []) hrest (fun _ h => by simp at h) hends hmax
    exact ⟨q, by simp [item, hq], hrest', hn⟩
  | true =>
    obtain @⟨k, a, b, l, m, hk, ha, hb, hl⟩ := hv
    have hkey : key p = .ok (p.emit (k.length + 2 + a.length + 1) (p.strTok k.length)) :=
      (key_eq_ok hR).mpr ⟨k, a, b ++ (l ++ r), by rw [hrest]; simp, hk.strchr, ha, by omega, rfl⟩
    have hrest₁ : (p.emit (k.length + 2 + a.length + 1) (p.strTok k.length)).rest =
        b ++ (l ++ r) := by
      rw [P.rest_emit, hrest]
      have : quote :: k ++ quote :: a ++ colon :: b ++ l ++ r
          = (quote :: k ++ quote :: a ++ [colon]) ++ (b ++ (l ++ r)) := by simp
      rw [this]
      exact drop_left' (by simp; omega)
    have hends' : Ends l r := by
      intro hlast
      refine hends ?_
      obtain ⟨c, hc, hn⟩ := hlast
      refine ⟨c, ?_, hn⟩
      rw [getLast?_append, Option.mem_def.mp hc]
      rfl
    obtain ⟨t, q, hq, hrest', hn⟩ := hval hl (P.room_emit hR (by omega)) hrest₁ hb hends'
      (by rw [P.t_emit]; simp; omega)
    refine ⟨q, by simp [item, hkey, hq], hrest', ?_⟩
    rw [hn, P.t_emit]
    simp
    omega

theorem isWs_closing (isObj : Bool) : isWs (closing isObj) = false := by
  cases isObj <;> decide

theorem comma_ne_closing (isObj : Bool) : comma ≠ closing isObj := by
  cases isObj <;> decide

/-- White space and then a byte that is none. -/
theorem P.rest_pastWs_of_ws {b : Bytes} (hrest : p.rest = b ++ c :: r)
    (hb : Ws b) (hc : isWs c = false) : p.pastWs.rest = c :: r := by
  rw [P.rest_pastWs, hrest, dropWhile_append_of_pos hb, dropWhile_cons_of_neg (by simp [hc])]

section Lists

variable {V : ℕ → Bytes → Prop} {val : P → Except Stop (ℕ × P)} {isObj : Bool}

/-- The items of a list are read one by one, the first of them from where the
white space before it ends. -/
theorem items_list (hsafe : Safe val) (hval : Complete V val) (hhead : Heads isObj V) {n : ℕ}
    {l : Bytes} (hl : List1 (Item isObj V) n l) :
    ∀ {k : ℕ} {p : P} {r : Bytes}, p.Room → p.rest = l ++ closing isObj :: r →
    p.rest.length ≤ k → p.t.length + n ≤ jsonMaxTokens →
    ∃ q, (item isObj val p.pastWs >>= items isObj val k false) = .ok q ∧ q.rest = r ∧
      q.t.length = p.t.length + n := by
  induction hl with
  | @one a v b n ha hv hb =>
    intro k p r hR hrest hk hmax
    obtain ⟨c, l, rfl, hc, -⟩ := hhead hv
    have hpast : p.pastWs.rest = (c :: l) ++ (b ++ closing isObj :: r) := by
      refine P.rest_pastWs_of_ws (b := a) ?_ ha hc
      rw [hrest]; simp
    have hends : Ends (c :: l) (b ++ closing isObj :: r) :=
      ends_ws hb (by cases isObj <;> decide)
    obtain ⟨q₂, hq₂, hrest₂, hn₂⟩ :=
      item_complete hval hv (P.room_pastWs.mpr hR) hpast hends hmax
    obtain ⟨k, rfl⟩ : ∃ k', k = k' + 1 := ⟨k - 1, by rw [hrest] at hk; simp at hk; omega⟩
    have hclose : q₂.pastWs.rest = closing isObj :: r :=
      P.rest_pastWs_of_ws hrest₂ hb (isWs_closing isObj)
    refine ⟨q₂.pastWs.adv 1, ?_, ?_, hn₂⟩
    · rw [hq₂, Except.ok_bind, items_close hclose]
    · rw [P.rest_adv, hclose]; rfl
  | @more a v b l' n m ha hv hb _ ih =>
    intro k p r hR hrest hk hmax
    obtain ⟨c, l, rfl, hc, -⟩ := hhead hv
    have hpast : p.pastWs.rest = (c :: l) ++ (b ++ comma :: (l' ++ closing isObj :: r)) := by
      refine P.rest_pastWs_of_ws (b := a) ?_ ha hc
      rw [hrest]; simp
    obtain ⟨q₂, hq₂, hrest₂, hn₂⟩ := item_complete hval hv (P.room_pastWs.mpr hR) hpast
      (ends_ws hb (by decide)) (by rw [P.t_pastWs]; omega)
    rw [P.t_pastWs] at hn₂
    have hR₂ := ((item_safe hsafe isObj (P.room_pastWs.mpr hR)).2 q₂ hq₂).room
    obtain ⟨k, rfl⟩ : ∃ k', k = k' + 1 := ⟨k - 1, by rw [hrest] at hk; simp at hk; omega⟩
    have hcomma : q₂.pastWs.rest = comma :: (l' ++ closing isObj :: r) :=
      P.rest_pastWs_of_ws hrest₂ hb (by decide)
    -- behind the comma the rest of the list begins
    have hrest₃ : (q₂.pastWs.adv 1).rest = l' ++ closing isObj :: r := by
      rw [P.rest_adv, hcomma]; rfl
    have hlen : (q₂.pastWs.adv 1).rest.length ≤ k := by
      rw [hrest₃]
      rw [hrest] at hk
      simp only [length_append, length_cons] at hk ⊢
      omega
    have ht₃ : (q₂.pastWs.adv 1).t.length = q₂.t.length := rfl
    obtain ⟨q, hq, hrest', hn⟩ := ih (p := q₂.pastWs.adv 1) hR₂ hrest₃ hlen (by omega)
    refine ⟨q, ?_, hrest', by omega⟩
    rw [hq₂, Except.ok_bind, items_item hcomma (comma_ne_closing isObj),
      separator_false_eq_ok.mpr ⟨rfl, rfl⟩, Except.ok_bind]
    exact hq

/-- The items of a container that holds some. -/
theorem items_complete (hsafe : Safe val) (hval : Complete V val) (hhead : Heads isObj V) {n : ℕ}
    {l : Bytes} (hl : List1 (Item isObj V) n l) {k : ℕ} {p : P} {r : Bytes} (hR : p.Room)
    (hrest : p.rest = l ++ closing isObj :: r) (hk : p.rest.length ≤ k)
    (hmax : p.t.length + n ≤ jsonMaxTokens) :
    ∃ q, items isObj val (k + 1) true p = .ok q ∧ q.rest = r ∧ q.t.length = p.t.length + n := by
  obtain ⟨q, hq, hrest', hn⟩ := items_list hsafe hval hhead hl hR hrest hk hmax
  refine ⟨q, ?_, hrest', hn⟩
  -- a list starts with white space and the first byte of an item
  have hstart : ∃ a c l', l = a ++ c :: l' ∧ Ws a ∧ isWs c = false ∧ c ≠ closing isObj := by
    cases hl with
    | one ha hv hb =>
      obtain ⟨c, l, rfl, hc, hne⟩ := hhead hv
      exact ⟨_, c, l ++ _, by simp; rfl, ha, hc, hne⟩
    | more ha hv hb hr =>
      obtain ⟨c, l, rfl, hc, hne⟩ := hhead hv
      exact ⟨_, c, l ++ _, by simp; rfl, ha, hc, hne⟩
  obtain ⟨a, c, l', rfl, ha, hc, hne⟩ := hstart
  have hpast : p.pastWs.rest = c :: (l' ++ closing isObj :: r) :=
    P.rest_pastWs_of_ws (by rw [hrest]; simp) ha hc
  rw [items_item hpast hne, separator_true, Except.ok_bind]
  exact hq

/-- The items of a container that holds nothing. -/
theorem items_empty {k : ℕ} {p : P} {a r : Bytes} (hrest : p.rest = a ++ closing isObj :: r)
    (ha : Ws a) : ∃ q, items isObj val (k + 1) true p = .ok q ∧ q.rest = r ∧
      q.t.length = p.t.length + 0 := by
  have hpast : p.pastWs.rest = closing isObj :: r :=
    P.rest_pastWs_of_ws hrest ha (isWs_closing isObj)
  refine ⟨p.pastWs.adv 1, items_close hpast, ?_, rfl⟩
  rw [P.rest_adv, hpast]; rfl

/-- A container is read when what stands in it is. -/
theorem container_complete {p : P} {b r : Bytes} {n : ℕ} (hR : p.Room)
    (hrest : p.rest.drop 1 = b ++ closing isObj :: r) (hmax : p.t.length + (n + 1) ≤ jsonMaxTokens)
    (h : ∀ {p : P}, p.Room → p.rest = b ++ closing isObj :: r → p.t.length + n ≤ jsonMaxTokens →
      ∃ q, items isObj val (p.n - p.i + 1) true p = .ok q ∧ q.rest = r ∧
        q.t.length = p.t.length + n) :
    ∃ t q, container isObj val p = .ok (t, q) ∧ q.rest = r ∧ q.t.length = p.t.length + (n + 1) := by
  have hlen : (p.inside isObj).t.length = p.t.length + 1 := by simp [P.inside]
  obtain ⟨q, hq, hrest', hn⟩ := h (p := p.inside isObj) (P.room_emit hR (by omega))
    (by rw [P.inside, P.rest_emit]; exact hrest) (by omega)
  refine ⟨p.t.length, close q p.t.length q.i q.t.length, ?_, hrest', by rw [length_close]; omega⟩
  rw [container_eq hR, if_pos (by omega), hq, Except.ok_bind]

end Lists

theorem start_branch {c : UInt8} (h : isDigit c ∨ c = minus) :
    c ≠ quote ∧ ¬ (c = lbrace ∨ c = lbracket) :=
  (char_facts.2 h).2.2

theorem words_branch : ∀ {w : Bytes × JType}, w ∈ words → ∃ c l, w.1 = c :: l ∧
    c ≠ quote ∧ ¬ (c = lbrace ∨ c = lbracket) ∧ ¬ (isDigit c ∨ c = minus) := by
  intro w hw
  simp only [words, mem_cons, not_mem_nil, or_false] at hw
  rcases hw with rfl | rfl | rfl
  · exact ⟨_, _, rfl, by decide, by decide, by decide⟩
  · exact ⟨_, _, rfl, by decide, by decide, by decide⟩
  · exact ⟨_, _, rfl, by decide, by decide, by decide⟩

/-- No literal is the beginning of another. -/
theorem find?_words {w : Bytes × JType} (hw : w ∈ words) (r : Bytes) :
    (words.find? fun x => decide (x.1 <+: w.1 ++ r)) = some w := by
  simp only [words, mem_cons, not_mem_nil, or_false] at hw
  rcases hw with rfl | rfl | rfl <;> simp [words, cons_prefix_cons]

/-- A number that ends is read as far as it goes. -/
theorem takeWhile_of_ends (hc : isDigit c ∨ c = minus)
    (hl : ∀ e ∈ l, isNumeral e = true) (hends : Ends (c :: l) r) :
    ((c :: l) ++ r).takeWhile (strchr numerals) = c :: l := by
  have hall : ∀ e ∈ c :: l, isNumeral e = true := by
    intro e he
    rcases mem_cons.mp he with rfl | h
    · exact isNumeral_of_start hc
    · exact hl e h
  have hpos : ∀ e ∈ c :: l, strchr numerals e = true := by
    intro e he
    have := hall e he
    simp only [isNumeral, contains_iff_mem] at this
    simp [strchr, this]
  rw [takeWhile_append_of_pos hpos]
  cases r with
  | nil => simp
  | cons e r =>
    have hlast : ∃ x ∈ (c :: l).getLast?, isNumeral x = true :=
      ⟨(c :: l).getLast (by simp), by rw [getLast?_eq_some_getLast (by simp)]; rfl,
        hall _ (getLast_mem _)⟩
    have := hends hlast e (by simp)
    rw [takeWhile_cons_of_neg (by simp [this]), append_nil]

theorem branch_complete (hsafe : Safe val)
    (hval : Complete V val) (hheads : ∀ isObj, Heads isObj V)
    (hv : ValueOf V n (c :: l)) (hR : p.Room) (hrest : p.rest = (c :: l) ++ r)
    (hends : Ends (c :: l) r) (hmax : p.t.length + n ≤ jsonMaxTokens) :
    ∃ t q, branch val c p = .ok (t, q) ∧ q.rest = r ∧ q.t.length = p.t.length + n := by
  unfold branch
  -- a container of either kind, given how its items are read
  have hcontainer : ∀ (isObj : Bool) {b : Bytes} (n : ℕ), l = b ++ [closing isObj] →
      p.t.length + (n + 1) ≤ jsonMaxTokens →
      (∀ {p : P}, p.Room → p.rest = b ++ closing isObj :: r → p.t.length + n ≤ jsonMaxTokens →
        ∃ q, items isObj val (p.n - p.i + 1) true p = .ok q ∧ q.rest = r ∧
          q.t.length = p.t.length + n) →
      ∃ t q, container isObj val p = .ok (t, q) ∧ q.rest = r ∧
      q.t.length = p.t.length + (n + 1) := by
    intro isObj b n hl hmax h
    exact container_complete hR (by rw [hrest, hl]; simp) hmax h
  have hlist : ∀ (isObj : Bool) {b : Bytes} {n : ℕ}, List1 (Item isObj V) n b → ∀ {p : P}, p.Room →
      p.rest = b ++ closing isObj :: r → p.t.length + n ≤ jsonMaxTokens →
      ∃ q, items isObj val (p.n - p.i + 1) true p = .ok q ∧ q.rest = r ∧
        q.t.length = p.t.length + n := by
    intro isObj b n hb p hR hrest hmax
    exact items_complete hsafe hval (hheads isObj) hb hR hrest (by rw [P.length_rest]) hmax
  cases hv with
  | @string k hk =>
    rw [if_pos rfl]
    refine ⟨_, _, (string_eq_ok hR).mpr ⟨k, r, ?_, hk.strchr, by omega, rfl, rfl⟩, ?_, by simp⟩
    · rw [hrest]; simp
    · rw [P.rest_emit, hrest]
      exact drop_left' (by simp)
  | number hc hl =>
    obtain ⟨hq, hb⟩ := start_branch hc
    rw [if_neg hq, if_neg hb, if_pos hc, number_eq hR, if_pos (by omega), hrest,
      takeWhile_of_ends hc hl hends]
    refine ⟨_, _, rfl, ?_, by simp⟩
    rw [P.rest_emit, hrest]
    exact drop_left
  | @literal _ type hw =>
    obtain ⟨c', l', hcl, hq, hb, hd⟩ := words_branch hw
    obtain ⟨rfl, rfl⟩ := List.cons.inj hcl
    rw [if_neg hq, if_neg hb, if_neg hd, word_eq hR (by rw [hrest]; simp), hrest, find?_words hw r]
    simp only [if_pos (show p.t.length < jsonMaxTokens by omega)]
    refine ⟨_, _, rfl, ?_, by simp⟩
    rw [P.rest_emit, hrest]
    exact drop_left
  | emptyArray ha =>
    rw [if_neg (by decide), if_pos (by decide)]
    exact hcontainer false 0 rfl hmax fun _ hrest _ => items_empty hrest ha
  | array hl =>
    rw [if_neg (by decide), if_pos (by decide)]
    exact hcontainer false _ rfl hmax (hlist false hl)
  | emptyObject ha =>
    rw [if_neg (by decide), if_pos (by decide)]
    exact hcontainer true 0 rfl hmax fun _ hrest _ => items_empty hrest ha
  | object hl =>
    rw [if_neg (by decide), if_pos (by decide)]
    exact hcontainer true _ rfl hmax (hlist true hl)

theorem value_succ_complete {d : ℕ} (hval : Complete V (value d))
    (hheads : ∀ isObj, Heads isObj V) : Complete (ValueOf V) (value (d + 1)) := by
  intro n v hv p a r hR hrest ha hends hmax
  obtain ⟨c, l, rfl, hc, -, -⟩ := hv.head
  have hpast : p.pastWs.rest = (c :: l) ++ r := P.rest_pastWs_of_ws hrest ha hc
  obtain ⟨t, q, hq, hrest', hn⟩ := branch_complete (value_safe d) hval hheads hv
    (P.room_pastWs.mpr hR) hpast hends hmax
  exact ⟨t, q, by rw [value_cons hpast]; exact hq, hrest', hn⟩

/-- The items of a container begin as its values do, or with the quote of a name. -/
theorem heads_of_value (h : ∀ {n : ℕ} {v : Bytes}, V n v →
      ∃ c l, v = c :: l ∧ isWs c = false ∧ c ≠ rbracket) :
    ∀ isObj, Heads isObj V := by
  intro isObj n v hv
  cases isObj with
  | false =>
    obtain ⟨c, l, hl, hc, hne⟩ := h hv
    exact ⟨c, l, hl, hc, hne⟩
  | true =>
    obtain @⟨k, a, b, l, m, -, -, -, -⟩ := hv
    exact ⟨quote, _, by simp; rfl, by decide, by decide⟩

theorem Value.head {d : ℕ} (h : Value d n v) :
    ∃ c l, v = c :: l ∧ isWs c = false ∧ c ≠ rbracket := by
  cases d with
  | zero =>
    obtain ⟨c, l, hl, hc, hne, -⟩ := ValueOf.head h
    exact ⟨c, l, hl, hc, hne⟩
  | succ d =>
    obtain ⟨c, l, hl, hc, hne, -⟩ := ValueOf.head h
    exact ⟨c, l, hl, hc, hne⟩

/-- **What is in the grammar the descent accepts.** -/
theorem value_complete : ∀ d : ℕ, Complete (Value d) (value (d + 1)) := by
  intro d
  induction d with
  | zero =>
    refine value_succ_complete (V := fun _ _ => False) (fun h => h.elim) ?_
    exact heads_of_value fun h => h.elim
  | succ d ih => exact value_succ_complete ih (heads_of_value Value.head)

/-! ### The document -/

/-- The bytes before the first NUL. -/
def untilNul (s : Bytes) : Bytes := s.takeWhile (· ≠ nul)

/-- The first NUL, if there is one, follows neither a character of a number nor a
backslash. -/
def NulApart (s : Bytes) : Prop :=
  untilNul s = s ∨ ∀ c ∈ (untilNul s).getLast?, isNumeral c = false ∧ c ≠ backslash

instance (s : Bytes) : Decidable (NulApart s) :=
  inferInstanceAs (Decidable (_ ∨ ∀ c ∈ (untilNul s).getLast?, _))

theorem NulApart.clean {s : Bytes} (h : NulApart s) :
    ∃ r₀, s = untilNul s ++ r₀ ∧ Clean (untilNul s) r₀ := by
  have hnul : nul ∉ untilNul s := fun hm => by
    have := mem_takeWhile_imp hm
    simp at this
  refine ⟨s.dropWhile (· ≠ nul), takeWhile_append_dropWhile.symm, hnul, ?_⟩
  cases hd : s.dropWhile (· ≠ nul) with
  | nil => exact Or.inl rfl
  | cons c r =>
    right
    have hc : c = nul := by
      have := head?_dropWhile_not (· ≠ nul) s
      rw [hd] at this
      simpa using this
    refine ⟨⟨r, by rw [hc]⟩, ?_⟩
    rcases h with h | h
    · have : (s.takeWhile (· ≠ nul)).length + (s.dropWhile (· ≠ nul)).length = s.length := by
        rw [← length_append, takeWhile_append_dropWhile]
      rw [← untilNul, h, hd] at this
      simp at this
    · exact h

/-- **The documents the parser accepts**, the NUL not next to a number or a
backslash: what stands before the first NUL is a text of the grammar. -/
theorem jsonParse_iff (j : JsonDoc) (s : Bytes) (hs : NulApart s) :
    (∃ j', jsonParse j s = .ok j') ↔ s.length ≤ jsonMaxLen ∧ Text (untilNul s) := by
  obtain ⟨r₀, hsplit, hcl⟩ := hs.clean
  set p₀ : P := ⟨s, 0, [], j.cap⟩ with hp₀
  have hR : p₀.Room := Nat.zero_le _
  have hrest : p₀.rest = untilNul s ++ r₀ := by rw [← hsplit]; rfl
  unfold jsonParse
  by_cases hlen : jsonMaxLen < s.length
  · rw [if_pos hlen]
    simp only [reduceCtorEq, exists_false, false_iff]
    rintro ⟨h, -⟩
    omega
  rw [if_neg hlen]
  constructor
  · rintro ⟨j', h⟩
    refine ⟨by omega, ?_⟩
    obtain ⟨⟨t, q⟩, hq, h⟩ := Except.bind_eq_ok_iff.mp h
    obtain ⟨a, v, l', n, hl, ha, hv, hrest', hn⟩ := value_sound r₀ jsonDepth hR hrest hcl hq
    have hm := (value_safe (jsonDepth + 1)).moves hR hq
    have hcl' : Clean l' r₀ := Clean.of_append (v := a ++ v) (by rw [hl] at hcl; simpa using hcl)
    have hpast : q.pastWs.rest = l'.dropWhile isWs ++ r₀ := by
      rw [P.rest_pastWs, hrest', hcl'.dropWhile_ws]
    simp only [ws_eq, Except.ok_bind] at h
    -- the value is followed by white space alone
    have hnil : l'.dropWhile isWs = [] := by
      by_cases hend : q.pastWs.i = q.pastWs.n
      · have := P.n_le_i.mp hend.ge
        rw [hpast] at this
        exact (append_eq_nil_iff.mp this).1
      · rw [if_neg hend] at h
        cases hr : q.pastWs.rest with
        | nil =>
          have := P.n_le_i.mpr hr
          rw [if_neg (by omega)] at h
          exact absurd h (by simp)
        | cons c r =>
          rw [if_pos (P.i_lt_n.mpr (by rw [hr]; simp)), P.peek_zero hr, Except.ok_bind] at h
          by_cases hc : c = nul
          · cases hd : l'.dropWhile isWs with
            | nil => rfl
            | cons e l'' =>
              rw [hd, hr, hc] at hpast
              obtain ⟨rfl, -⟩ := List.cons.inj hpast
              have : nul ∈ l' := (dropWhile_sublist isWs).subset (by rw [hd]; simp)
              exact absurd this hcl'.nul_free
          · rw [if_neg hc] at h
            exact absurd h (by simp)
    have hws : Ws l' := by
      intro c hc
      rw [← takeWhile_append_dropWhile (p := isWs) (l := l'), hnil, append_nil] at hc
      exact mem_takeWhile_imp hc
    refine ⟨a, v, l', n, by rw [hl]; simp, ha, hws, hv, ?_⟩
    have hroom := hm.room
    have hcap := q.cap.le_max
    have : p₀.t.length = 0 := rfl
    unfold P.Room at hroom
    omega
  · rintro ⟨-, a, v, b, n, hl, ha, hb, hv, hn⟩
    have hends : Ends v (b ++ r₀) := by
      cases b with
      | cons c b =>
        refine ends_of_head fun e he => ?_
        obtain rfl : c = e := by simpa using he
        exact strchr_numerals_of_ws (hb c (by simp))
      | nil =>
        rcases hcl.tail with rfl | ⟨-, hlast⟩
        · exact ends_of_head (by simp)
        · rintro ⟨c, hc, hnum⟩
          have := (hlast c (by
            rw [hl, append_nil, getLast?_append, Option.mem_def.mp hc]; rfl)).1
          rw [this] at hnum
          exact absurd hnum (by simp)
    obtain ⟨t, q, hq, hrest', -⟩ := value_complete jsonDepth hv hR
      (by rw [hrest, hl]; simp) ha hends (by simpa [hp₀] using hn)
    have hm := (value_safe (jsonDepth + 1)).moves hR hq
    have hpast : q.pastWs.rest = r₀ := by
      rw [P.rest_pastWs, hrest', dropWhile_append_of_pos hb]
      cases hr₀ : r₀ with
      | nil => rfl
      | cons c r =>
        have hc : c = nul := hcl.head_tail c (by rw [hr₀]; simp)
        rw [hc, dropWhile_cons_of_neg (by decide)]
    rw [hq]
    simp only [Except.ok_bind, ws_eq]
    cases hr : q.pastWs.rest with
    | nil =>
      have h₁ := P.n_le_i.mpr hr
      have h₂ : q.pastWs.i ≤ q.pastWs.n := by
        have h₃ := hm.le
        have h₄ := q.length_rest
        have h₅ := (List.takeWhile_prefix (l := q.rest) isWs).length_le
        rw [P.i_pastWs]
        change _ ≤ q.n
        omega
      rw [if_pos (by omega)]
      exact ⟨_, rfl⟩
    | cons c r =>
      have hin := P.i_lt_n.mpr (by rw [hr]; simp : q.pastWs.rest ≠ [])
      have hc : c = nul := hcl.head_tail c (by rw [← hpast, hr]; simp)
      rw [if_neg (by omega), if_pos hin, P.peek_zero hr, Except.ok_bind, if_pos hc]
      exact ⟨_, rfl⟩

/-- **No read leaves the text**, whatever its bytes are, and the parser ends. -/
theorem jsonParse_refuses (j : JsonDoc) (s : Bytes) {e : Stop} (h : jsonParse j s = .error e) :
    e = .refused := by
  unfold jsonParse at h
  by_cases hlen : jsonMaxLen < s.length
  · rw [if_pos hlen] at h
    exact (Except.error.inj h).symm
  rw [if_neg hlen] at h
  rcases Except.bind_eq_error_iff.mp h with h | ⟨⟨t, q⟩, -, h⟩
  · exact (value_safe (jsonDepth + 1)).refused (Nat.zero_le _) h
  · simp only [ws_eq, Except.ok_bind] at h
    by_cases hend : q.pastWs.i = q.pastWs.n
    · rw [if_pos hend] at h
      exact absurd h (by simp)
    rw [if_neg hend] at h
    by_cases hin : q.pastWs.i < q.pastWs.n
    · rw [if_pos hin] at h
      cases hr : q.pastWs.rest with
      | nil => exact absurd hr (P.i_lt_n.mp hin)
      | cons c r =>
        rw [P.peek_zero hr, Except.ok_bind] at h
        split at h
        · exact absurd h (by simp)
        · exact (Except.error.inj h).symm
    · rw [if_neg hin] at h
      exact (Except.error.inj h).symm

/-! ### Texts of the grammar hold no NUL -/

theorem Ws.nul_notMem (h : Ws l) : nul ∉ l := fun hm => absurd (h nul hm) (by decide)

theorem Chars.nul_notMem (h : Chars isEscape l) : nul ∉ l := by
  induction h with
  | nil => simp
  | @unescaped c l hlow _ _ _ ih =>
    rw [mem_cons, not_or]
    exact ⟨fun hc => hlow (by rw [← hc]; decide), ih⟩
  | @escaped e l _ he _ ih =>
    rw [mem_cons, mem_cons, not_or, not_or]
    exact ⟨by decide, fun hc => by rw [← hc] at he; exact absurd he (by decide), ih⟩
  | @unicode a b c d l hx _ ih =>
    have hhex : ∀ e, isHex e = true → nul ≠ e := by
      rintro e he rfl; exact absurd he (by decide)
    simp only [Bool.and_eq_true] at hx
    simp only [mem_cons, not_or]
    exact ⟨by decide, by decide, hhex a hx.1.1.1, hhex b hx.1.1.2, hhex c hx.1.2, hhex d hx.2, ih⟩

theorem List1.nul_notMem {Item : ℕ → Bytes → Prop} (hI : ∀ {n v}, Item n v → nul ∉ v)
    (h : List1 Item n l) : nul ∉ l := by
  induction h with
  | one ha hl hb =>
    simp only [mem_append, not_or]
    exact ⟨⟨ha.nul_notMem, hI hl⟩, hb.nul_notMem⟩
  | more ha hl hb _ ih =>
    simp only [mem_append, mem_cons, not_or]
    exact ⟨⟨⟨ha.nul_notMem, hI hl⟩, hb.nul_notMem⟩, by decide, ih⟩

theorem Member.nul_notMem (hV : ∀ {n v}, V n v → nul ∉ v)
    (h : Member V n l) : nul ∉ l := by
  obtain ⟨hk, ha, hb, hl⟩ := h
  simp only [mem_append, mem_cons, cons_append, not_or]
  exact ⟨by decide, ⟨⟨hk.nul_notMem, by decide, ha.nul_notMem⟩, by decide, hb.nul_notMem⟩, hV hl⟩

theorem ValueOf.nul_notMem (hV : ∀ {n v}, V n v → nul ∉ v) (h : ValueOf V n l) : nul ∉ l := by
  have hbr : ∀ {o c : UInt8} {b : Bytes}, nul ≠ o → nul ≠ c → nul ∉ b → nul ∉ o :: b ++ [c] := by
    intro o c b ho hc hb
    simp only [cons_append, mem_cons, mem_append, not_mem_nil, or_false, not_or]
    exact ⟨ho, hb, hc⟩
  cases h with
  | string hk => exact hbr (by decide) (by decide) hk.nul_notMem
  | @number c l hc hl =>
    rw [mem_cons, not_or]
    refine ⟨?_, fun hm => absurd (hl nul hm) (by decide)⟩
    rintro rfl
    revert hc
    decide
  | literal hw => exact nul_notMem_words hw
  | emptyArray ha => exact hbr (by decide) (by decide) ha.nul_notMem
  | array hl => exact hbr (by decide) (by decide) (hl.nul_notMem hV)
  | emptyObject ha => exact hbr (by decide) (by decide) ha.nul_notMem
  | object hl => exact hbr (by decide) (by decide) (hl.nul_notMem (Member.nul_notMem hV))

theorem Value.nul_notMem : ∀ {d n : ℕ} {l : Bytes}, Value d n l → nul ∉ l := by
  intro d
  induction d with
  | zero => intro n l h; exact ValueOf.nul_notMem (V := fun _ _ => False) (fun h => h.elim) h
  | succ d ih => intro n l h; exact ValueOf.nul_notMem ih h

theorem Text.nul_notMem (h : Text l) : nul ∉ l := by
  obtain ⟨a, v, b, n, rfl, ha, hb, hv, -⟩ := h
  simp only [mem_append, not_or]
  exact ⟨⟨ha.nul_notMem, hv.nul_notMem⟩, hb.nul_notMem⟩

/-! ### The parser and the grammar -/

/-- **The parser accepts its grammar.**  A text of at most `jsonMaxLen` bytes whose
first NUL, if there is one, is not next to a number or a backslash is accepted
exactly when what stands before that NUL is a text of the grammar; a longer one
is refused; and no text makes the parser read beyond its end, or go on forever. -/
theorem jsonParse_grammar (j : JsonDoc) (s : Bytes) :
    (NulApart s →
      ((∃ j', jsonParse j s = .ok j') ↔ s.length ≤ jsonMaxLen ∧ Text (untilNul s))) ∧
    jsonParse j s ≠ .error .outside ∧ jsonParse j s ≠ .error .endless := by
  refine ⟨jsonParse_iff j s, fun h => ?_, fun h => ?_⟩
  · exact absurd (jsonParse_refuses j s h) (by decide)
  · exact absurd (jsonParse_refuses j s h) (by decide)

/-- The document `[1]` and the NUL that `ws_recv` puts behind a message. -/
theorem jsonParse_grammar_array :
    NulApart [lbracket, 0x31, rbracket, nul] ∧ Text [lbracket, 0x31, rbracket] := by
  have hapart : NulApart [lbracket, 0x31, rbracket, nul] := by decide +kernel
  refine ⟨hapart, ?_⟩
  exact (((jsonParse_grammar .empty [lbracket, 0x31, rbracket, nul]).1 hapart).mp
    ⟨_, rfl⟩).2

/-- A number, a space and a NUL are accepted, and are no text of the grammar. -/
theorem jsonParse_trailing_nul :
    (∃ j', jsonParse .empty [0x31, space, nul] = .ok j') ∧ ¬ Text [0x31, space, nul] :=
  ⟨⟨_, rfl⟩, fun h => h.nul_notMem (by decide)⟩

end Hassmic.Json
