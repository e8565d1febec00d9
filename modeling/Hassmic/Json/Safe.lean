import Hassmic.Json.Leaves

/-!
# The JSON parser stays inside its text

Every part of the descent either succeeds, having passed at least one byte, or
refuses the document: `Stop.outside` and `Stop.endless` are never the outcome.

## Main results

* `value_safe` — the descent never reads outside the text, and ends.
-/

namespace Hassmic.Json

open Byte List

/-! ### Staying inside the text -/

/-- The cursor moved on in the same text, at most to its end. -/
structure Moves (p q : P) : Prop where
  s : q.s = p.s
  lt : p.i < q.i
  le : q.i ≤ q.n
  room : q.Room

/-- A reader that only ever refuses, and that moves on when it succeeds. -/
structure Safe (val : P → Except Stop (ℕ × P)) : Prop where
  refused : ∀ {p : P} {e : Stop}, p.Room → val p = .error e → e = .refused
  moves : ∀ {p q : P} {t : ℕ}, p.Room → val p = .ok (t, q) → Moves p q

variable {p : P} {val : P → Except Stop (ℕ × P)}

/-- A token added for a prefix of what is left. -/
theorem moves_emit {k : ℕ} {j : Jtok} (hR : p.Room) (hmax : p.t.length < jsonMaxTokens)
    (hpos : 0 < k) (hk : k ≤ p.rest.length) : Moves p (p.emit k j) := by
  have := p.length_rest
  exact ⟨rfl, by rw [P.i_emit]; omega, by rw [P.i_emit, P.n_emit]; omega, P.room_emit hR hmax⟩

theorem item_safe (hval : Safe val) (isObj : Bool)
    (hR : p.Room) :
    (∀ e, item isObj val p = .error e → e = .refused) ∧
    (∀ q, item isObj val p = .ok q → Moves p q) := by
  -- what the name of a member leaves behind
  have hname : ∀ q, (bif isObj then key p else .ok p) = .ok q → q.s = p.s ∧ p.i ≤ q.i ∧ q.Room := by
    intro q h
    cases isObj with
    | false =>
      obtain rfl := Except.ok.inj h
      exact ⟨rfl, le_rfl, hR⟩
    | true =>
      obtain ⟨b, w, r, -, -, -, hmax, rfl⟩ := (key_eq_ok hR).mp h
      exact ⟨rfl, by simp only [P.i_emit]; omega, P.room_emit hR hmax⟩
  constructor
  · intro e h
    rcases Except.bind_eq_error_iff.mp h with h | ⟨q, hq, h⟩
    · cases isObj with
      | false => exact absurd h (by simp)
      | true => exact key_error hR h
    · rcases Except.bind_eq_error_iff.mp h with h | ⟨⟨t, q'⟩, -, h⟩
      · exact hval.refused (hname q hq).2.2 h
      · exact absurd h (by simp)
  · intro q h
    obtain ⟨q₁, hq₁, h⟩ := Except.bind_eq_ok_iff.mp h
    obtain ⟨⟨t, q₂⟩, hq₂, h⟩ := Except.bind_eq_ok_iff.mp h
    obtain rfl := Except.ok.inj h
    obtain ⟨hs, hi, hR₁⟩ := hname q₁ hq₁
    have hm := hval.moves hR₁ hq₂
    exact ⟨hm.s.trans hs, by have := hm.lt; omega, hm.le, hm.room⟩

theorem separator_moves {first : Bool} {c : UInt8} {q : P} (h : separator first c p = .ok q) :
    q.s = p.s ∧ p.i ≤ q.i ∧ q.t = p.t ∧ (p.Room → q.Room) := by
  cases first with
  | true =>
    obtain rfl := Except.ok.inj h
    exact ⟨rfl, le_rfl, rfl, id⟩
  | false =>
    obtain ⟨-, rfl⟩ := separator_false_eq_ok.mp h
    exact ⟨rfl, by rw [P.i_pastWs, P.i_adv]; omega, rfl, id⟩

/-- The loop over a container's items ends within as many turns as bytes are
left. -/
theorem items_safe (hval : Safe val) (isObj : Bool) :
    ∀ (k : ℕ) (first : Bool) {p : P}, p.Room → p.rest.length < k →
    (∀ e, items isObj val k first p = .error e → e = .refused) ∧
    (∀ q, items isObj val k first p = .ok q → Moves p q) := by
  intro k
  induction k with
  | zero => intro first p _ h; omega
  | succ k ih =>
    intro first p hR hk
    cases hr : p.pastWs.rest with
    | nil => rw [items_nil hr]; simp
    | cons c l =>
      by_cases hc : c = closing isObj
      · rw [hc] at hr
        rw [items_close hr]
        refine ⟨by simp, fun q h => ?_⟩
        obtain rfl := Except.ok.inj h
        have hin : p.pastWs.i < p.n := P.i_lt_n.mpr (by rw [hr]; simp)
        exact ⟨rfl, by rw [P.i_adv, P.i_pastWs]; omega, by rw [P.i_adv]; exact hin, hR⟩
      · rw [items_item hr hc]
        -- an item is read from a cursor that did not move back, so one turn less is enough
        have hin : p.pastWs.i < p.n := P.i_lt_n.mpr (by rw [hr]; simp)
        have hlen := p.length_rest
        have hi := p.i_pastWs
        constructor
        · intro e h
          rcases Except.bind_eq_error_iff.mp h with h | ⟨q₁, hq₁, h⟩
          · exact separator_error h
          · obtain ⟨hs₁, hi₁, -, hR₁⟩ := separator_moves hq₁
            obtain ⟨herr, hok⟩ := item_safe hval isObj (hR₁ hR)
            rcases Except.bind_eq_error_iff.mp h with h | ⟨q₂, hq₂, h⟩
            · exact herr e h
            · have hm := hok q₂ hq₂
              have hi₂ := hm.lt
              have hn : q₂.n = p.n := by rw [P.n, hm.s, hs₁]; rfl
              exact (ih false hm.room (by rw [P.length_rest, hn]; omega)).1 e h
        · intro q h
          obtain ⟨q₁, hq₁, h⟩ := Except.bind_eq_ok_iff.mp h
          obtain ⟨q₂, hq₂, h⟩ := Except.bind_eq_ok_iff.mp h
          obtain ⟨hs₁, hi₁, -, hR₁⟩ := separator_moves hq₁
          have hm := (item_safe hval isObj (hR₁ hR)).2 q₂ hq₂
          have hi₂ := hm.lt
          have hn : q₂.n = p.n := by rw [P.n, hm.s, hs₁]; rfl
          have hm' := (ih false hm.room (by rw [P.length_rest, hn]; omega)).2 q h
          have hi₃ := hm'.lt
          exact ⟨by rw [hm'.s, hm.s, hs₁]; rfl, by omega, hm'.le, hm'.room⟩

/-- The cursor inside a container, behind its opening bracket. -/
def P.inside (p : P) (isObj : Bool) : P :=
  p.emit 1 ⟨if isObj then .obj else .arr, p.i, p.i, none⟩

/-- A container is read when there is room for its token and its items are. -/
theorem container_eq (hR : p.Room) (isObj : Bool) (val : P → Except Stop (ℕ × P)) :
    container isObj val p = if p.t.length < jsonMaxTokens then (do
      let q ← items isObj val ((p.inside isObj).n - (p.inside isObj).i + 1) true (p.inside isObj)
      .ok (p.t.length, close q p.t.length q.i q.t.length))
      else .error .refused := by
  unfold container
  rw [tok_eq hR]
  by_cases hmax : p.t.length < jsonMaxTokens
  · simp only [if_pos hmax, Except.ok_bind, emit_adv, Nat.zero_add]
    rfl
  · simp only [if_neg hmax, Except.error_bind]

@[simp] theorem length_close (p : P) (t e next : ℕ) : (close p t e next).t.length = p.t.length := by
  simp [close]

theorem room_close {t e next : ℕ} : (close p t e next).Room ↔ p.Room := by
  simp [P.Room, close]

theorem container_safe (hval : Safe val) (isObj : Bool) :
    Safe (container isObj val) := by
  have hitems : ∀ {p : P}, p.Room → p.t.length < jsonMaxTokens → _ := fun {p} hR hmax =>
    items_safe hval isObj ((p.inside isObj).n - (p.inside isObj).i + 1) true
      (p := p.inside isObj) (P.room_emit hR hmax) (by rw [P.length_rest]; omega)
  constructor
  · intro p e hR h
    rw [container_eq hR] at h
    by_cases hmax : p.t.length < jsonMaxTokens
    · rw [if_pos hmax] at h
      rcases Except.bind_eq_error_iff.mp h with h | ⟨q, -, h⟩
      · exact (hitems hR hmax).1 e h
      · exact absurd h (by simp)
    · rw [if_neg hmax] at h
      exact (Except.error.inj h).symm
  · intro p q t hR h
    rw [container_eq hR] at h
    by_cases hmax : p.t.length < jsonMaxTokens
    · rw [if_pos hmax] at h
      obtain ⟨q', hq', h⟩ := Except.bind_eq_ok_iff.mp h
      obtain ⟨rfl, rfl⟩ := Prod.mk.inj (Except.ok.inj h)
      have hm := (hitems hR hmax).2 q' hq'
      have hin : (p.inside isObj).i = p.i + 1 := rfl
      have hlt := hm.lt
      exact ⟨hm.s, by change p.i < q'.i; omega, hm.le, room_close.mpr hm.room⟩
    · rw [if_neg hmax] at h
      exact absurd h (by simp)

theorem string_safe : Safe string := by
  refine ⟨fun hR h => string_error hR h, fun hR h => ?_⟩
  obtain ⟨b, r, hbr, -, hmax, -, rfl⟩ := (string_eq_ok hR).mp h
  have hlen := congrArg List.length hbr
  simp only [length_drop, length_append, length_cons] at hlen
  exact moves_emit hR hmax (by omega) (by omega)

/-- A number is not empty: its first character is one of `numerals`. -/
theorem takeWhile_numerals_pos {c : UInt8} {l : Bytes} (hc : isDigit c ∨ c = minus) :
    0 < ((c :: l).takeWhile (strchr numerals)).length := by
  have : strchr numerals c = true := by
    revert hc; revert c; decide +kernel
  rw [takeWhile_cons_of_pos this]
  simp

theorem length_pos_of_mem_words : ∀ {w : Bytes × JType}, w ∈ words → 0 < w.1.length := by
  decide

/-- What a value is read from, by its first character. -/
theorem branch_safe (hval : Safe val) {c : UInt8}
    {l : Bytes} (hR : p.Room) (hr : p.rest = c :: l) :
    (∀ e, branch val c p = .error e → e = .refused) ∧
    (∀ t q, branch val c p = .ok (t, q) → Moves p q) := by
  unfold branch
  by_cases hq : c = quote
  · rw [if_pos hq]
    exact ⟨fun e h => string_safe.refused hR h, fun t q h => string_safe.moves hR h⟩
  rw [if_neg hq]
  by_cases hb : c = lbrace ∨ c = lbracket
  · rw [if_pos hb]
    have := container_safe hval (c = lbrace)
    exact ⟨fun e h => this.refused hR h, fun t q h => this.moves hR h⟩
  rw [if_neg hb]
  by_cases hd : isDigit c ∨ c = minus
  · rw [if_pos hd, number_eq hR]
    have hpos := takeWhile_numerals_pos (l := l) hd
    rw [← hr] at hpos
    by_cases hmax : p.t.length < jsonMaxTokens
    · rw [if_pos hmax]
      refine ⟨by simp, fun t q h => ?_⟩
      obtain ⟨rfl, rfl⟩ := Prod.mk.inj (Except.ok.inj h)
      exact moves_emit hR hmax hpos (List.takeWhile_prefix _).length_le
    · rw [if_neg hmax]
      simp
  rw [if_neg hd, word_eq hR (by rw [hr]; simp)]
  cases hw : words.find? fun w => decide (w.1 <+: p.rest) with
  | none => simp
  | some w =>
    have hpos : 0 < w.1.length := length_pos_of_mem_words (mem_of_find?_eq_some hw)
    by_cases hmax : p.t.length < jsonMaxTokens
    · simp only [if_pos hmax]
      refine ⟨by simp, fun t q h => ?_⟩
      obtain ⟨rfl, rfl⟩ := Prod.mk.inj (Except.ok.inj h)
      have hpre : w.1 <+: p.rest := by simpa using find?_some hw
      exact moves_emit hR hmax hpos hpre.length_le
    · simp only [if_neg hmax]
      simp

/-- **The descent stays inside the text and ends**: it only ever refuses, and
what it accepts is not empty. -/
theorem value_safe : ∀ d : ℕ, Safe (value d) := by
  intro d
  induction d with
  | zero =>
    refine ⟨fun hR h => ?_, fun hR h => ?_⟩
    · rw [value, ws_eq, Except.ok_bind] at h
      exact (Except.error.inj h).symm
    · rw [value, ws_eq, Except.ok_bind] at h
      exact absurd h (by simp)
  | succ d ih =>
    constructor
    · intro p e hR h
      cases hr : p.pastWs.rest with
      | nil =>
        rw [value_nil hr] at h
        exact (Except.error.inj h).symm
      | cons c l =>
        rw [value_cons hr] at h
        exact (branch_safe ih (P.room_pastWs.mpr hR) hr).1 e h
    · intro p q t hR h
      cases hr : p.pastWs.rest with
      | nil =>
        rw [value_nil hr] at h
        exact absurd h (by simp)
      | cons c l =>
        rw [value_cons hr] at h
        have hm := (branch_safe ih (P.room_pastWs.mpr hR) hr).2 t q h
        have hlt := hm.lt
        rw [P.i_pastWs] at hlt
        exact ⟨hm.s, by omega, hm.le, hm.room⟩

end Hassmic.Json
