import Hassmic.Lib.Nest
import Hassmic.Json.Safe

/-!
# The token array is a tree

The parser writes its tokens in document order and fills in where each value
ends once its end was seen.  Of every document it accepts, the token array is a
tree in the sense of `Hassmic.Lib.Nest`, and the byte ranges nest as the tokens
do, so the readers that walk it by `next` see each child once.

## Main definitions

* `jsonType`, `jsonFirst`, `jsonNext`, `jsonLen`, `jsonGet` — the readers.
* `JsonDoc.walk` — the loop `JSON_EACH`.
* `TokenTree` — what holds of the token array.
-/

namespace Hassmic.Json

open Byte Nest Option List

/-! ### The readers

An index is `none` where the source has `-1`. -/

/-- The type of a token, none outside the array. -/
def jsonType (j : JsonDoc) (t : Option ℕ) : Option JType := do
  let t ← t
  let k ← j.t[t]?
  some k.type

/-- The first element of an array, the first key of an object. -/
def jsonFirst (j : JsonDoc) (t : ℕ) : Option ℕ := do
  let k ← j.t[t]?
  if k.type = .obj ∨ k.type = .arr then
    let next ← k.next
    if t + 1 < next then some (t + 1) else none
  else none

/-- The next sibling of `t` in the container `c`. -/
def jsonNext (j : JsonDoc) (c t : ℕ) : Option ℕ := do
  let k ← j.t[t]?
  let o ← j.t[c]?
  let nx ← k.next
  let e ← o.next
  if nx < e then some nx else none

/-- `for (k = json_first(j, c); k >= 0; k = json_next(j, c, k))`: the tokens visited,
none if the loop does not end in the turns it is given. -/
def JsonDoc.walkLoop (j : JsonDoc) (c : ℕ) : ℕ → Option ℕ → Option (List ℕ)
  | _, none => some []
  | 0, some _ => none
  | f + 1, some k => (j.walkLoop c f (jsonNext j c k)).map (k :: ·)

/-- The macro `JSON_EACH`. -/
def JsonDoc.walk (j : JsonDoc) (c : ℕ) : Option (List ℕ) :=
  j.walkLoop c (j.t.length + 1) (jsonFirst j c)

/-- The loop of `json_len`, up to the token `e`. -/
def lenLoop (j : JsonDoc) (e : ℕ) : ℕ → Option ℕ → ℕ → Option ℕ
  | _, none, n => some n
  | 0, some _, _ => none
  | f + 1, some k, n =>
      if k < e then lenLoop j e f ((j.t[k]?).bind (·.next)) (n + 1) else some n

/-- The elements of an array, the keys of an object; none if the loop does not
end. -/
def jsonLen (j : JsonDoc) (t : ℕ) : Option ℕ := do
  let n ← lenLoop j (((j.t[t]?).bind (·.next)).getD 0) (j.t.length + 1) (jsonFirst j t) 0
  some (if jsonType j (some t) = some .obj then n / 2 else n)

/-- The text of a token. -/
def JsonDoc.text (j : JsonDoc) (k : Jtok) : Bytes := (j.s.drop k.start).take (k.end_ - k.start)

/-- A name as it is written equals the key asked for, and has no escape. -/
def keyMatches (j : JsonDoc) (key : Bytes) (k : Jtok) : Bool :=
  k.end_ - k.start == key.length && j.text k == key && !(j.text k).contains backslash

/-- The loop of `json_get` over names and values, up to the token `e`: the token
found or `none`; the outer `none` if the loop does not end. -/
def getLoop (j : JsonDoc) (key : Bytes) (e : ℕ) : ℕ → ℕ → Option (Option ℕ)
  | 0, _ => none
  | f + 1, k =>
      if k < e then
        match j.t[k]? with
        | none => some none
        | some t =>
            match t.next with
            | none => some none
            | some v =>
                if e ≤ v then some none
                else if keyMatches j key t then some (some v)
                else getLoop j key e f (((j.t[v]?).bind (·.next)).getD 0)
      else some none

/-- The value of `key` in the object `o`. -/
def jsonGet (j : JsonDoc) (o : ℕ) (key : Bytes) : Option (Option ℕ) :=
  match j.t[o]? with
  | none => some none
  | some k =>
      if k.type = .obj then getLoop j key (k.next.getD 0) (j.t.length + 1) (o + 1)
      else some none

/-! ### Stretches of the token array -/

/-- Where the token `i` and all it holds end; `0` while that is not filled in. -/
def nx (T : List Jtok) (i : ℕ) : ℕ := ((T[i]?).bind (·.next)).getD 0

/-- The tokens of `[a, b)` are names, each followed by its value. -/
inductive Members (T : List Jtok) : ℕ → ℕ → Prop
  | nil (a : ℕ) : Members T a a
  | cons {a b : ℕ} {k : Jtok} (hk : T[a]? = some k) (hstr : k.type = .str) (hnx : nx T a = a + 1)
      (hlt : a + 1 < nx T (a + 1)) (h : Members T (nx T (a + 1)) b) : Members T a b

/-- The tokens of `[a, b)` are whole values in the bytes `[lo, hi)` of the text. -/
structure Seg (T : List Jtok) (a b lo hi : ℕ) : Prop where
  le : a ≤ b
  length : b ≤ T.length
  lo_le : lo ≤ hi
  nested : Nested (nx T) a b
  filled : ∀ i k, a ≤ i → i < b → T[i]? = some k → k.next = some (nx T i)
  range : ∀ i k, a ≤ i → i < b → T[i]? = some k → lo ≤ k.start ∧ k.start ≤ k.end_ ∧ k.end_ ≤ hi
  ranges : ∀ i i' k k', a ≤ i → i < i' → i' < b → T[i]? = some k → T[i']? = some k' →
    if i' < nx T i then k.start ≤ k'.start ∧ k'.end_ ≤ k.end_ else k.end_ ≤ k'.start
  members : ∀ i k, a ≤ i → i < b → T[i]? = some k → k.type = .obj → Members T (i + 1) (nx T i)

variable {T T' : List Jtok} {p q : P} {val : P → Except Stop (ℕ × P)} {j : JsonDoc}

theorem nx_congr {i : ℕ} (h : T[i]? = T'[i]?) : nx T i = nx T' i := by
  unfold nx; rw [h]

theorem Members.le {a b : ℕ} (h : Members T a b) : a ≤ b := by
  induction h with
  | nil => exact le_rfl
  | cons _ _ _ hlt _ ih => omega

theorem Members.congr {a b : ℕ} (h : Members T a b)
    (heq : ∀ i, a ≤ i → i < b → T[i]? = T'[i]?) : Members T' a b := by
  induction h with
  | nil => exact .nil _
  | @cons a b k hk hstr hnx hlt h ih =>
    have hle := h.le
    have h₁ : nx T (a + 1) = nx T' (a + 1) := nx_congr (heq _ (by omega) (by omega))
    refine .cons (by rw [← heq a le_rfl (by omega)]; exact hk) hstr ?_ (by rw [← h₁]; exact hlt) ?_
    · rw [← nx_congr (heq a le_rfl (by omega))]; exact hnx
    · rw [← h₁]
      exact ih fun i hi => heq i (by omega)

namespace Seg

variable {T T' : List Jtok} {a b c lo m hi : ℕ}

theorem nil (h : a ≤ T.length) (hlo : lo ≤ hi) : Seg T a a lo hi :=
  ⟨le_rfl, h, hlo, .nil, fun _ _ _ _ => by omega, fun _ _ _ _ => by omega,
    fun _ _ _ _ _ _ _ => by omega, fun _ _ _ _ => by omega⟩

theorem widen {lo' hi' : ℕ} (h : Seg T a b lo hi) (hlo : lo' ≤ lo) (hhi : hi ≤ hi') :
    Seg T a b lo' hi' where
  le := h.le
  length := h.length
  lo_le := hlo.trans (h.lo_le.trans hhi)
  nested := h.nested
  filled := h.filled
  range := fun i k hi hb hk => by
    have := h.range i k hi hb hk
    omega
  ranges := h.ranges
  members := h.members

/-- Tokens added behind a stretch, or changed before it, do not matter to it. -/
theorem congr (h : Seg T a b lo hi) (hlen : b ≤ T'.length)
    (heq : ∀ i, a ≤ i → i < b → T[i]? = T'[i]?) : Seg T' a b lo hi where
  le := h.le
  length := hlen
  lo_le := h.lo_le
  nested := h.nested.congr fun i hi hb => nx_congr (heq i hi hb)
  filled := fun i k hi hb hk => by
    rw [← nx_congr (heq i hi hb)]
    exact h.filled i k hi hb (by rw [heq i hi hb]; exact hk)
  range := fun i k hi hb hk => h.range i k hi hb (by rw [heq i hi hb]; exact hk)
  ranges := fun i i' k k' hi hii hb hk hk' => by
    rw [← nx_congr (heq i hi (by omega))]
    exact h.ranges i i' k k' hi hii hb (by rw [heq i hi (by omega)]; exact hk)
      (by rw [heq i' (by omega) hb]; exact hk')
  members := fun i k hi hb hk hobj => by
    have hm := h.members i k hi hb (by rw [heq i hi hb]; exact hk) hobj
    have hle := h.nested.le i hi hb
    rw [← nx_congr (heq i hi hb)]
    exact hm.congr fun x hx hxb => heq x (by omega) (by omega)

theorem append (h₁ : Seg T a b lo m) (h₂ : Seg T b c m hi) : Seg T a c lo hi where
  le := h₁.le.trans h₂.le
  length := h₂.length
  lo_le := h₁.lo_le.trans h₂.lo_le
  nested := h₁.nested.append h₂.nested h₂.le
  filled := fun i k hi hc hk => by
    rcases Nat.lt_or_ge i b with h | h
    · exact h₁.filled i k hi h hk
    · exact h₂.filled i k h hc hk
  range := fun i k hi hc hk => by
    have hlo := h₁.lo_le
    have hhi := h₂.lo_le
    rcases Nat.lt_or_ge i b with h | h
    · have := h₁.range i k hi h hk
      omega
    · have := h₂.range i k h hc hk
      omega
  ranges := fun i i' k k' hi hii hc hk hk' => by
    rcases Nat.lt_or_ge i' b with h' | h'
    · exact h₁.ranges i i' k k' hi hii h' hk hk'
    rcases Nat.lt_or_ge i b with h | h
    · -- the one in the first stretch, the other in the second
      have hle := h₁.nested.le i hi h
      have hr := h₁.range i k hi h hk
      have hr' := h₂.range i' k' h' hc hk'
      rw [if_neg (by omega)]
      omega
    · exact h₂.ranges i i' k k' h hii hc hk hk'
  members := fun i k hi hc hk hobj => by
    rcases Nat.lt_or_ge i b with h | h
    · exact h₁.members i k hi h hk hobj
    · exact h₂.members i k h hc hk hobj

/-- A token above whole values makes one value of them. -/
theorem wrap {k : Jtok} (h : Seg T (a + 1) b lo hi) (hk : T[a]? = some k) (hnext : k.next = some b)
    (hstart : k.start ≤ lo) (hend : hi ≤ k.end_) (hmem : k.type = .obj → Members T (a + 1) b) :
    Seg T a b k.start k.end_ := by
  have hle := h.le
  have hlo := h.lo_le
  have hnx : nx T a = b := by unfold nx; rw [hk]; simp [hnext]
  have hcase : ∀ i, a ≤ i → i = a ∨ a + 1 ≤ i := fun i hi => by omega
  refine ⟨by omega, h.length, by omega, h.nested.wrap hnx (by omega), fun i k' hi hb hk' => ?_,
    fun i k' hi hb hk' => ?_, fun i i' k₁ k₂ hi hii hb hk₁ hk₂ => ?_, fun i k' hi hb hk' hobj => ?_⟩
  · rcases hcase i hi with rfl | h'
    · rw [hk] at hk'
      rw [← some.inj hk', hnx, hnext]
    · exact h.filled i k' h' hb hk'
  · rcases hcase i hi with rfl | h'
    · rw [hk] at hk'
      obtain rfl := some.inj hk'
      exact ⟨le_rfl, by omega, le_rfl⟩
    · have := h.range i k' h' hb hk'
      omega
  · rcases hcase i hi with rfl | h'
    · rw [hk] at hk₁
      obtain rfl := some.inj hk₁
      have := h.range i' k₂ (by omega) hb hk₂
      rw [hnx, if_pos hb]
      omega
    · exact h.ranges i i' k₁ k₂ h' hii hb hk₁ hk₂
  · rcases hcase i hi with rfl | h'
    · rw [hk] at hk'
      obtain rfl := some.inj hk'
      rw [hnx]
      exact hmem hobj
    · exact h.members i k' h' hb hk' hobj

end Seg

/-! ### The parser builds them -/

/-- What the parser added between two cursors are whole values. -/
structure Grows (p q : P) : Prop where
  keeps : ∀ i, i < p.t.length → q.t[i]? = p.t[i]?
  seg : Seg q.t p.t.length q.t.length p.i q.i

/-- ... and just one of them. -/
structure GrowsOne (p q : P) : Prop extends Grows p q where
  lt : p.t.length < q.t.length
  root : nx q.t p.t.length = q.t.length

theorem Grows.trans {r : P} (h₁ : Grows p q) (h₂ : Grows q r) : Grows p r := by
  have hle := h₁.seg.le
  refine ⟨fun i hi => ?_, ?_⟩
  · rw [h₂.keeps i (by omega), h₁.keeps i hi]
  · refine (h₁.seg.congr (h₂.seg.le.trans h₂.seg.length) fun i _ hi => ?_).append h₂.seg
    exact (h₂.keeps i hi).symm

theorem grows_of_eq (ht : q.t = p.t) (hi : p.i ≤ q.i) : Grows p q := by
  refine ⟨fun i _ => by rw [ht], ?_⟩
  rw [ht]
  exact .nil le_rfl hi

/-- A string, a number or a literal. -/
theorem grows_emit {k : ℕ} {j : Jtok} (hnext : j.next = some (p.t.length + 1))
    (htype : j.type ≠ .obj) (hstart : p.i ≤ j.start) (hle : j.start ≤ j.end_)
    (hend : j.end_ ≤ p.i + k) : GrowsOne p (p.emit k j) := by
  have hget : (p.t ++ [j])[p.t.length]? = some j := by simp
  have hlen : (p.emit k j).t.length = p.t.length + 1 := by simp
  refine ⟨⟨fun i hi => ?_, ?_⟩, by omega, ?_⟩
  · rw [P.t_emit, getElem?_append_left hi]
  · rw [hlen]
    have hseg : Seg (p.emit k j).t (p.t.length + 1) (p.t.length + 1) j.start j.end_ :=
      .nil (by omega) hle
    exact (hseg.wrap hget hnext le_rfl le_rfl fun h => absurd h htype).widen hstart hend
  · rw [hlen]
    unfold nx
    rw [P.t_emit, hget]
    simp [hnext]

theorem grows_string {t : ℕ} (hR : p.Room) (h : string p = .ok (t, q)) :
    GrowsOne p q := by
  obtain ⟨b, r, -, -, -, -, rfl⟩ := (string_eq_ok hR).mp h
  exact grows_emit rfl (by simp [P.strTok]) (by simp [P.strTok]) (by simp [P.strTok])
    (by simp [P.strTok]; omega)

/-- `val` adds one value. -/
def Builds (val : P → Except Stop (ℕ × P)) : Prop :=
  ∀ {p q : P} {t : ℕ}, p.Room → val p = .ok (t, q) → GrowsOne p q

/-- The token at `a` is a name, followed by its value, which ends at `b`. -/
def IsMember (T : List Jtok) (a b : ℕ) : Prop :=
  (∃ k, T[a]? = some k ∧ k.type = .str) ∧ nx T a = a + 1 ∧ a + 1 < b ∧ nx T (a + 1) = b

theorem IsMember.congr {a b : ℕ} (h : IsMember T a b)
    (heq : ∀ i, i < b → T'[i]? = T[i]?) : IsMember T' a b := by
  obtain ⟨⟨k, hk, hstr⟩, h₁, h₂, h₃⟩ := h
  refine ⟨⟨k, by rw [heq a (by omega)]; exact hk, hstr⟩, ?_, h₂, ?_⟩
  · rw [nx_congr (heq a (by omega))]; exact h₁
  · rw [nx_congr (heq (a + 1) h₂)]; exact h₃

theorem item_grows (hval : Builds val) {isObj : Bool}
    (hR : p.Room) (h : item isObj val p = .ok q) :
    Grows p q ∧ (isObj = true → IsMember q.t p.t.length q.t.length) := by
  obtain ⟨q₁, hq₁, h⟩ := Except.bind_eq_ok_iff.mp h
  obtain ⟨⟨t, q₂⟩, hq₂, h⟩ := Except.bind_eq_ok_iff.mp h
  obtain rfl := Except.ok.inj h
  cases isObj with
  | false =>
    obtain rfl := Except.ok.inj hq₁
    exact ⟨(hval hR hq₂).toGrows, fun h => absurd h (by simp)⟩
  | true =>
    obtain ⟨b, w, r, -, -, -, hmax, rfl⟩ := (key_eq_ok hR).mp hq₁
    have hname : GrowsOne p (p.emit (b.length + 2 + w.length + 1) (p.strTok b.length)) :=
      grows_emit rfl (by simp [P.strTok]) (by simp [P.strTok]) (by simp [P.strTok])
        (by simp [P.strTok]; omega)
    have hv := hval (P.room_emit hR hmax) hq₂
    have hlen : (p.emit (b.length + 2 + w.length + 1) (p.strTok b.length)).t.length
        = p.t.length + 1 := by simp
    have hlt := hv.lt
    have hroot := hv.root
    rw [hlen] at hlt hroot
    refine ⟨hname.toGrows.trans hv.toGrows, fun _ => ⟨⟨p.strTok b.length, ?_, rfl⟩, ?_, hlt, hroot⟩⟩
    · rw [hv.keeps p.t.length (by omega)]; simp
    · rw [nx_congr (hv.keeps p.t.length (by omega)), hname.root, hlen]

theorem items_grows (hsafe : Safe val) (hval : Builds val)
    {isObj : Bool} : ∀ (k : ℕ) (first : Bool) {p q : P}, p.Room →
    items isObj val k first p = .ok q →
    Grows p q ∧ (isObj = true → Members q.t p.t.length q.t.length) := by
  intro k
  induction k with
  | zero => intro first p q _ h; exact absurd h (by simp [items])
  | succ k ih =>
    intro first p q hR h
    cases hr : p.pastWs.rest with
    | nil => rw [items_nil hr] at h; exact absurd h (by simp)
    | cons c l =>
      by_cases hc : c = closing isObj
      · rw [hc] at hr
        rw [items_close hr] at h
        obtain rfl := Except.ok.inj h
        exact ⟨grows_of_eq rfl (by rw [P.i_adv, P.i_pastWs]; omega), fun _ => .nil _⟩
      · rw [items_item hr hc] at h
        obtain ⟨q₁, hq₁, h⟩ := Except.bind_eq_ok_iff.mp h
        obtain ⟨q₂, hq₂, h⟩ := Except.bind_eq_ok_iff.mp h
        obtain ⟨-, hi₁, ht₁, hR₁⟩ := separator_moves hq₁
        have hsep : Grows p q₁ := grows_of_eq ht₁ (by have := p.i_pastWs; omega)
        obtain ⟨hitem, hmem⟩ := item_grows hval (hR₁ hR) hq₂
        have hR₂ := ((item_safe hsafe isObj (hR₁ hR)).2 q₂ hq₂).room
        obtain ⟨hrest, hmems⟩ := ih false hR₂ h
        refine ⟨(hsep.trans hitem).trans hrest, fun hobj => ?_⟩
        obtain ⟨⟨k', hk', hstr⟩, h₁, h₂, h₃⟩ := (hmem hobj).congr hrest.keeps
        rw [ht₁] at hk' h₁ h₂ h₃
        exact .cons hk' hstr h₁ (by rw [P.t_pastWs] at *; omega)
          (by rw [P.t_pastWs] at h₃; rw [h₃]; exact hmems hobj)

theorem container_grows (hsafe : Safe val) (hval : Builds val)
    (isObj : Bool) : Builds (container isObj val) := by
  intro p q t hR h
  rw [container_eq hR] at h
  by_cases hmax : p.t.length < jsonMaxTokens
  swap
  · rw [if_neg hmax] at h; exact absurd h (by simp)
  rw [if_pos hmax] at h
  obtain ⟨r, hr, h⟩ := Except.bind_eq_ok_iff.mp h
  obtain ⟨rfl, rfl⟩ := Prod.mk.inj (Except.ok.inj h)
  obtain ⟨hg, hmem⟩ :=
    items_grows hsafe hval _ true (p := p.inside isObj) (P.room_emit hR hmax) hr
  have hin : (p.inside isObj).t.length = p.t.length + 1 := by simp [P.inside]
  rw [hin] at hmem
  have hseg := hg.seg
  rw [hin] at hseg
  have hle := hseg.le
  -- the token of the container is where it was put, and only it is filled in
  have hother : ∀ i, i ≠ p.t.length →
      (close r p.t.length r.i r.t.length).t[i]? = r.t[i]? := by
    intro i hi
    simp [close, hi.symm]
  have hself : (close r p.t.length r.i r.t.length).t[p.t.length]?
      = some ⟨if isObj then .obj else .arr, p.i, r.i, some r.t.length⟩ := by
    have : r.t[p.t.length]? = some ⟨if isObj then .obj else .arr, p.i, p.i, none⟩ := by
      rw [hg.keeps p.t.length (by omega)]
      simp [P.inside]
    simp [close, this]
  have hlen := length_close r p.t.length r.i r.t.length
  refine ⟨⟨fun i hi => ?_, ?_⟩, by omega, ?_⟩
  · rw [hother i (by omega), hg.keeps i (by omega)]
    simp [P.inside, getElem?_append_left hi]
  · have hle : r.t.length ≤ (close r p.t.length r.i r.t.length).t.length := by omega
    have hseg' := hseg.congr hle fun i hi _ => (hother i (by omega)).symm
    rw [hlen]
    refine hseg'.wrap hself rfl (by simp [P.inside]) le_rfl fun hobj => ?_
    have hisObj : isObj = true := by
      cases isObj with
      | true => rfl
      | false => simp at hobj
    exact (hmem hisObj).congr fun i hi _ => (hother i (by omega)).symm
  · unfold nx
    rw [hself, hlen]
    rfl

theorem words_type : ∀ {w : Bytes × JType}, w ∈ words → w.2 ≠ .obj := by decide

theorem branch_grows (hsafe : Safe val) (hval : Builds val) {t : ℕ} {c : UInt8} {l : Bytes}
    (hR : p.Room) (hr : p.rest = c :: l) (h : branch val c p = .ok (t, q)) : GrowsOne p q := by
  unfold branch at h
  by_cases hq : c = quote
  · rw [if_pos hq] at h
    exact grows_string hR h
  rw [if_neg hq] at h
  by_cases hb : c = lbrace ∨ c = lbracket
  · rw [if_pos hb] at h
    exact container_grows hsafe hval _ hR h
  rw [if_neg hb] at h
  by_cases hd : isDigit c ∨ c = minus
  · rw [if_pos hd, number_eq hR] at h
    split at h
    · obtain ⟨rfl, rfl⟩ := Prod.mk.inj (Except.ok.inj h)
      exact grows_emit rfl (by simp) le_rfl (by simp) (by simp)
    · exact absurd h (by simp)
  rw [if_neg hd, word_eq hR (by rw [hr]; simp)] at h
  cases hw : words.find? fun w => decide (w.1 <+: p.rest) with
  | none => rw [hw] at h; exact absurd h (by simp)
  | some w =>
    rw [hw] at h
    simp only at h
    split at h
    · obtain ⟨rfl, rfl⟩ := Prod.mk.inj (Except.ok.inj h)
      have htype : w.2 ≠ .obj := words_type (mem_of_find?_eq_some hw)
      exact grows_emit rfl htype le_rfl (by simp) (by simp)
    · exact absurd h (by simp)

/-- **Every value the descent reads adds one value to the token array.** -/
theorem value_grows : ∀ d : ℕ, Builds (value d) := by
  intro d
  induction d with
  | zero =>
    intro p q t _ h
    rw [value, ws_eq, Except.ok_bind] at h
    exact absurd h (by simp)
  | succ d ih =>
    intro p q t hR h
    cases hr : p.pastWs.rest with
    | nil => rw [value_nil hr] at h; exact absurd h (by simp)
    | cons c l =>
      rw [value_cons hr] at h
      have hg := branch_grows (value_safe d) ih (P.room_pastWs.mpr hR) hr h
      have hws : Grows p p.pastWs := grows_of_eq rfl (by rw [P.i_pastWs]; omega)
      exact ⟨hws.trans hg.toGrows, hg.lt, hg.root⟩

/-! ### Walking the tree -/

/-- The token array of an accepted document is one value that lies in its text. -/
theorem jsonParse_seg {j₀ : JsonDoc} {s : Bytes} (h : jsonParse j₀ s = .ok j) :
    j.s = s ∧ Seg j.t 0 j.t.length 0 s.length := by
  unfold jsonParse at h
  split at h
  · exact absurd h (by simp)
  obtain ⟨⟨t, q⟩, hq, h⟩ := Except.bind_eq_ok_iff.mp h
  have hR : (⟨s, 0, [], j₀.cap⟩ : P).Room := Nat.zero_le _
  have hg := value_grows _ hR hq
  have hm := (value_safe _).moves hR hq
  have hlen : q.n = s.length := by rw [P.n, hm.s]
  have hseg : Seg q.t 0 q.t.length 0 s.length := hg.seg.widen le_rfl (hlen ▸ hm.le)
  simp only [ws_eq, Except.ok_bind] at h
  have hok : ∀ {j' : JsonDoc}, j' = ⟨s, q.pastWs.t, q.pastWs.cap⟩ →
      j'.s = s ∧ Seg j'.t 0 j'.t.length 0 s.length := by
    rintro j' rfl
    exact ⟨rfl, hseg⟩
  split at h
  · exact hok (Except.ok.inj h).symm
  · split at h
    · obtain ⟨c, -, h⟩ := Except.bind_eq_ok_iff.mp h
      split at h
      · exact hok (Except.ok.inj h).symm
      · exact absurd h (by simp)
    · exact absurd h (by simp)

/-! ### What an escaped name stands for -/

/-- The value of a hexadecimal digit. -/
def hexVal (c : UInt8) : ℕ :=
  if isDigit c then c.toNat - 48 else c.toNat % 32 + 9

/-- The UTF-8 encoding of a code point. -/
def utf8 (v : ℕ) : Bytes :=
  if v < 0x80 then [v.toUInt8]
  else if v < 0x800 then [(0xC0 + v / 64).toUInt8, (0x80 + v % 64).toUInt8]
  else if v < 0x10000 then
    [(0xE0 + v / 4096).toUInt8, (0x80 + v / 64 % 64).toUInt8, (0x80 + v % 64).toUInt8]
  else
    [(0xF0 + v / 262144).toUInt8, (0x80 + v / 4096 % 64).toUInt8, (0x80 + v / 64 % 64).toUInt8,
      (0x80 + v % 64).toUInt8]

/-- The four digits of a `\uXXXX` escape. -/
def codeUnit (l : Bytes) : ℕ := (l.take 4).foldl (fun v c => 16 * v + hexVal c) 0

/-- What a one-letter escape stands for. -/
def escaped (c : UInt8) : UInt8 :=
  if c = 0x62 then 8 else if c = 0x66 then 12 else if c = 0x6e then 10
  else if c = 0x72 then 13 else if c = 0x74 then 9 else c

/-- One step of `unescape` behind `\u`: the code point, from a surrogate pair where
there is one, and the text behind it. -/
def codePoint (l : Bytes) : ℕ × Bytes :=
  let v := codeUnit l
  let l := l.drop 4
  let lo := codeUnit (l.drop 2)
  if 0xD800 ≤ v ∧ v < 0xDC00 ∧ [backslash, 0x75] <+: l ∧ 0xDC00 ≤ lo ∧ lo < 0xE000 then
    (0x10000 + (v - 0xD800) * 1024 + (lo - 0xDC00), l.drop 6)
  else (v, l)

/-- The characters a string of RFC 8259 stands for, in `f` steps. -/
def unescapeLoop : ℕ → Bytes → Bytes
  | 0, _ => []
  | _ + 1, [] => []
  | f + 1, c :: l =>
      if c = backslash then
        match l with
        | [] => []
        | e :: l =>
            if e = 0x75 then utf8 (codePoint l).1 ++ unescapeLoop f (codePoint l).2
            else escaped e :: unescapeLoop f l
      else c :: unescapeLoop f l

/-- **The text a string of RFC 8259 stands for**, its escapes resolved. -/
def unescape (l : Bytes) : Bytes := unescapeLoop l.length l

theorem unescape_eq_self {l : Bytes} (h : backslash ∉ l) : unescape l = l := by
  unfold unescape
  induction l with
  | nil => rfl
  | cons c l ih =>
    rw [mem_cons, not_or] at h
    rw [length_cons, unescapeLoop.eq_def]
    simp only [if_neg (Ne.symm h.1), ih h.2]

section Walk

variable {j : JsonDoc} {lo hi : ℕ}

/-- The token at a position of a filled stretch. -/
theorem Seg.tok (h : Seg j.t 0 j.t.length lo hi) {i : ℕ} (hi' : i < j.t.length) :
    ∃ k, j.t[i]? = some k ∧ k.next = some (nx j.t i) := by
  refine ⟨j.t[i], getElem?_eq_getElem hi', ?_⟩
  exact h.filled i _ (Nat.zero_le i) hi' (getElem?_eq_getElem hi')

/-- A position as `json_first` and `json_next` give it: `-1` from `e` on. -/
def upTo (e a : ℕ) : Option ℕ := if a < e then some a else none

theorem jsonNext_eq (h : Seg j.t 0 j.t.length lo hi) {c a : ℕ} (hc : c < j.t.length)
    (ha : a < j.t.length) : jsonNext j c a = upTo (nx j.t c) (nx j.t a) := by
  obtain ⟨o, ho, hon⟩ := h.tok hc
  obtain ⟨k, hk, hkn⟩ := h.tok ha
  simp [jsonNext, ho, hk, hon, hkn, upTo]

theorem jsonFirst_eq (h : Seg j.t 0 j.t.length lo hi) {c : ℕ} {k : Jtok} (hk : j.t[c]? = some k)
    (htype : k.type = .obj ∨ k.type = .arr) : jsonFirst j c = upTo (nx j.t c) (c + 1) := by
  have hc := (List.getElem?_eq_some_iff.mp hk).1
  have hkn := h.filled c k (Nat.zero_le c) hc hk
  simp [jsonFirst, hk, htype, hkn, upTo]

/-- The walk over a container's children follows `next`. -/
theorem walkLoop_eq (h : Seg j.t 0 j.t.length lo hi) {c : ℕ} (hc : c < j.t.length) :
    ∀ (f a : ℕ), j.walkLoop c f (upTo (nx j.t c) a) = roots (nx j.t) (f + 1) a (nx j.t c) := by
  have hle := h.nested.le c (Nat.zero_le c) hc
  intro f
  induction f with
  | zero =>
    intro a
    unfold upTo roots
    split
    · rfl
    · rfl
  | succ f ih =>
    intro a
    unfold upTo roots
    split
    · next ha =>
      rw [JsonDoc.walkLoop, jsonNext_eq h hc (by omega), ih]
    · rfl

theorem lenLoop_eq (h : Seg j.t 0 j.t.length lo hi) {e : ℕ} (he : e ≤ j.t.length) :
    ∀ (f a n : ℕ), lenLoop j e f (some a) n
      = (roots (nx j.t) f a e).map fun L => n + L.length := by
  intro f
  induction f with
  | zero => intro a n; rfl
  | succ f ih =>
    intro a n
    unfold lenLoop roots
    split
    · next ha =>
      obtain ⟨k, hk, hkn⟩ := h.tok (i := a) (by omega)
      rw [hk, bind_some, hkn, ih, Option.map_map]
      refine congrArg (Option.map · _) (funext fun L => ?_)
      simp
      omega
    · rfl

/-- Names and values, two by two. -/
def pairs : List ℕ → List (ℕ × ℕ)
  | k :: v :: l => (k, v) :: pairs l
  | _ => []

/-- The token `i` is a name written without an escape whose text is `key`. -/
def named (j : JsonDoc) (key : Bytes) (i : ℕ) : Bool :=
  match j.t[i]? with
  | some k => !(j.text k).contains backslash && unescape (j.text k) == key
  | none => false

/-- The length of a token's text is what its byte range says. -/
theorem keyMatches_eq (h : Seg j.t 0 j.t.length 0 j.s.length) {i : ℕ} {k : Jtok}
    (hk : j.t[i]? = some k) (key : Bytes) : keyMatches j key k = named j key i := by
  have hlt := (List.getElem?_eq_some_iff.mp hk).1
  obtain ⟨-, h₁, h₂⟩ := h.range i k (Nat.zero_le i) hlt hk
  have hlen : (j.text k).length = k.end_ - k.start := by
    rw [JsonDoc.text, length_take, length_drop]
    omega
  unfold keyMatches named
  rw [hk]
  by_cases hmem : backslash ∈ j.text k
  · simp [hmem]
  · simp only [unescape_eq_self hmem]
    by_cases heq : j.text k = key
    · rw [heq] at hmem hlen
      simp [heq, hmem, hlen]
    · have hne : (j.text k == key) = false := beq_eq_false_iff_ne.mpr heq
      simp [hne]

/-- The names and values of an object, and the search for a name among them. -/
theorem members_spec (h : Seg j.t 0 j.t.length 0 j.s.length) {a e : ℕ} (hm : Members j.t a e)
    (he : e ≤ j.t.length) (key : Bytes) : ∀ {f : ℕ} {L : List ℕ}, roots (nx j.t) f a e = some L →
    L.length % 2 = 0 ∧ (∀ kv ∈ pairs L, jsonType j (some kv.1) = some .str) ∧
    ∀ g, e - a < g →
    getLoop j key e g a = some (((pairs L).find? fun kv => named j key kv.1).map (·.2)) := by
  induction hm with
  | nil a =>
    intro f L hL
    have hnil : L = [] := by
      cases f with
      | zero => exact absurd hL (by simp [roots])
      | succ f =>
        rw [roots, if_neg (by omega)] at hL
        exact (some.inj hL).symm
    subst hnil
    refine ⟨rfl, by simp [pairs], fun g hg => ?_⟩
    obtain ⟨g, rfl⟩ : ∃ g', g = g' + 1 := ⟨g - 1, by omega⟩
    rw [getLoop, if_neg (by omega)]
    rfl
  | @cons a e k hk hstr hnx hlt hm ih =>
    intro f L hL
    have hle := hm.le
    -- two turns of the walk visit the name and its value
    obtain ⟨L', hL', rfl⟩ : ∃ L', (∃ f', roots (nx j.t) f' (nx j.t (a + 1)) e = some L') ∧
        L = a :: (a + 1) :: L' := by
      cases f with
      | zero => exact absurd hL (by simp [roots])
      | succ f =>
        rw [roots, if_pos (by omega), hnx] at hL
        obtain ⟨L₁, hL₁, rfl⟩ := map_eq_some_iff.mp hL
        cases f with
        | zero => exact absurd hL₁ (by simp [roots])
        | succ f =>
          rw [roots, if_pos (by omega)] at hL₁
          obtain ⟨L₂, hL₂, rfl⟩ := map_eq_some_iff.mp hL₁
          exact ⟨L₂, ⟨f, hL₂⟩, rfl⟩
    obtain ⟨f', hf'⟩ := hL'
    obtain ⟨heven, htypes, hget⟩ := ih he hf'
    refine ⟨by simp only [length_cons]; omega, ?_, fun g hg => ?_⟩
    · intro kv hkv
      rw [pairs, mem_cons] at hkv
      rcases hkv with rfl | hkv
      · simp [jsonType, hk, hstr]
      · exact htypes kv hkv
    · obtain ⟨g, rfl⟩ : ∃ g', g = g' + 1 := ⟨g - 1, by omega⟩
      have hnext : k.next = some (a + 1) := by
        rw [h.filled a k (Nat.zero_le a) (by omega) hk, hnx]
      rw [getLoop, if_pos (by omega), hk]
      simp only [hnext]
      rw [if_neg (by omega), keyMatches_eq h hk, pairs, find?_cons]
      cases hn : named j key a with
      | true => simp
      | false =>
        simp only [Bool.false_eq_true, if_false]
        exact hget g (by omega)

end Walk

/-! ### The token array of an accepted document -/

/-- What the readers rely on in the token array. -/
structure TokenTree (j : JsonDoc) : Prop where
  /-- Every token ends behind itself and inside the array. -/
  next : ∀ (i : ℕ) (k : Jtok), j.t[i]? = some k → ∃ e, k.next = some e ∧ i < e ∧ e ≤ j.t.length
  /-- The intervals `[i, next i)` are properly nested. -/
  nested : ∀ (i i' : ℕ) (k k' : Jtok) (e e' : ℕ), j.t[i]? = some k → j.t[i']? = some k' →
    k.next = some e →
    k'.next = some e' → i < i' → i' < e → e' ≤ e
  /-- The byte ranges lie in the text. -/
  bytes : ∀ (i : ℕ) (k : Jtok), j.t[i]? = some k → k.start ≤ k.end_ ∧ k.end_ ≤ j.s.length
  /-- A token held by another lies in its byte range, any other behind it. -/
  ranges : ∀ (i i' : ℕ) (k k' : Jtok) (e : ℕ), j.t[i]? = some k → j.t[i']? = some k' →
    k.next = some e → i < i' →
    if i' < e then k.start ≤ k'.start ∧ k'.end_ ≤ k.end_ else k.end_ ≤ k'.start

/-- The token `i` is held by `c`, and by no token that `c` holds. -/
def IsChild (j : JsonDoc) (c i : ℕ) : Prop :=
  ∃ (k : Jtok) (e : ℕ), j.t[c]? = some k ∧ k.next = some e ∧ c < i ∧ i < e ∧
    ∀ (m : ℕ) (k' : Jtok) (e' : ℕ), c < m → m < i → j.t[m]? = some k' → k'.next = some e' → e' ≤ i

/-- What the readers give for the token `c`. -/
structure Walks (j : JsonDoc) (c : ℕ) (k : Jtok) (L : List ℕ) : Prop where
  /-- The loop `JSON_EACH` ends and visits `L`. -/
  walk : j.walk c = some L
  /-- Each direct child once, in order. -/
  sorted : L.Pairwise (· < ·)
  children : ∀ i, i ∈ L ↔ IsChild j c i
  /-- The elements of an array, the names of an object. -/
  len : jsonLen j c = some (if k.type = .obj then L.length / 2 else L.length)
  /-- Names and values alternate. -/
  even : k.type = .obj → L.length % 2 = 0
  names : k.type = .obj → ∀ kv ∈ pairs L, jsonType j (some kv.1) = some .str
  /-- The value of the first name written without an escape that is the key asked for. -/
  get : k.type = .obj → ∀ key, jsonGet j c key =
    some (((pairs L).find? fun kv => named j key kv.1).map (·.2))

theorem Seg.tree (h : Seg j.t 0 j.t.length 0 j.s.length) : TokenTree j := by
  have hlt : ∀ {i : ℕ} {k : Jtok}, j.t[i]? = some k → i < j.t.length :=
    fun hk => (List.getElem?_eq_some_iff.mp hk).1
  have hnx : ∀ {i e : ℕ} {k : Jtok}, j.t[i]? = some k → k.next = some e → nx j.t i = e := by
    intro i e k hk hn
    simp [nx, hk, hn]
  refine ⟨fun i k hk => ?_, fun i i' k k' e e' hk hk' hn hn' hii hie => ?_, fun i k hk => ?_,
    fun i i' k k' e hk hk' hn hii => ?_⟩
  · exact ⟨nx j.t i, h.filled i k (Nat.zero_le i) (hlt hk) hk,
      h.nested.lt i (Nat.zero_le i) (hlt hk), h.nested.le i (Nat.zero_le i) (hlt hk)⟩
  · have := h.nested.nest i i' (Nat.zero_le i) (hlt hk) hii (by rw [hnx hk hn]; exact hie)
    rwa [hnx hk hn, hnx hk' hn'] at this
  · exact (h.range i k (Nat.zero_le i) (hlt hk) hk).2
  · have := h.ranges i i' k k' (Nat.zero_le i) hii (hlt hk') hk hk'
    rwa [hnx hk hn] at this

theorem isChild_iff (h : Seg j.t 0 j.t.length 0 j.s.length) {c i : ℕ}
    (hc : c < j.t.length) : IsChild j c i ↔ IsRoot (nx j.t) (c + 1) (nx j.t c) i := by
  have hle := h.nested.le c (Nat.zero_le c) hc
  obtain ⟨k, hk, hkn⟩ := h.tok hc
  constructor
  · rintro ⟨k', e, hk', he, h₁, h₂, hm⟩
    have heq : e = nx j.t c := by simp [nx, hk', he]
    subst heq
    refine ⟨h₁, h₂, fun m hm₁ hm₂ => ?_⟩
    obtain ⟨k₂, hk₂, hn₂⟩ := h.tok (i := m) (by omega)
    exact hm m k₂ _ hm₁ hm₂ hk₂ hn₂
  · rintro ⟨h₁, h₂, hm⟩
    refine ⟨k, nx j.t c, hk, hkn, h₁, h₂, fun m k' e' hm₁ hm₂ hk' he' => ?_⟩
    have : nx j.t m = e' := by simp [nx, hk', he']
    rw [← this]
    exact hm m hm₁ hm₂

theorem Seg.walks (h : Seg j.t 0 j.t.length 0 j.s.length) {c : ℕ} {k : Jtok}
    (hk : j.t[c]? = some k) (htype : k.type = .obj ∨ k.type = .arr) : ∃ L, Walks j c k L := by
  have hc := (List.getElem?_eq_some_iff.mp hk).1
  have hlt := h.nested.lt c (Nat.zero_le c) hc
  have hle := h.nested.le c (Nat.zero_le c) hc
  have hkn := h.filled c k (Nat.zero_le c) hc hk
  -- what `c` holds is a stretch of whole values
  have hin : Nested (nx j.t) (c + 1) (nx j.t c) := by
    refine ⟨fun i hi he => h.nested.lt i (Nat.zero_le i) (by omega), fun i hi he => ?_,
      fun i i' hi he => h.nested.nest i i' (Nat.zero_le i) (by omega)⟩
    exact h.nested.nest c i (Nat.zero_le c) hc hi he
  obtain ⟨L, hL, hsort, hmem⟩ := roots_spec (j.t.length + 2) (c + 1) hin (by omega)
  have hwalk : j.walk c = some L := by
    rw [JsonDoc.walk, jsonFirst_eq h hk htype, walkLoop_eq h hc, hL]
  have hlen : lenLoop j (nx j.t c) (j.t.length + 1) (jsonFirst j c) 0 = some L.length := by
    obtain ⟨L', hL', hsort', hmem'⟩ := roots_spec (j.t.length + 1) (c + 1) hin (by omega)
    have heq : L' = L := by
      refine hsort'.eq_of_mem_iff hsort ?_
      intro i
      rw [hmem', hmem]
    rw [jsonFirst_eq h hk htype, upTo]
    split
    · rw [lenLoop_eq h hle, hL', heq]
      simp
    · next hge =>
      rw [roots, if_neg hge] at hL'
      rw [← heq, ← some.inj hL']
      rfl
  have hobj : k.type = .obj → Members j.t (c + 1) (nx j.t c) :=
    h.members c k (Nat.zero_le c) hc hk
  refine ⟨L, hwalk, hsort, fun i => by rw [hmem, isChild_iff h hc], ?_, fun ho => ?_, fun ho => ?_,
    fun ho key => ?_⟩
  · change (lenLoop j (nx j.t c) _ _ 0 >>= _) = _
    rw [hlen]
    simp [jsonType, hk]
  · exact (members_spec h (hobj ho) hle [] hL).1
  · exact (members_spec h (hobj ho) hle [] hL).2.1
  · have := (members_spec h (hobj ho) hle key hL).2.2 (j.t.length + 1) (by omega)
    rw [jsonGet, hk]
    simp only [ho, if_true, hkn, getD_some]
    exact this

/-- **The token array of every accepted document is a well-formed tree**, and the
readers walk it: `JSON_EACH` visits each direct child once, `json_len` counts the
elements of an array or the names of an object, and `json_get` finds the value of
the first name written without an escape that is the key asked for. -/
theorem jsonParse_tree (j₀ j : JsonDoc) (s : Bytes) (h : jsonParse j₀ s = .ok j) :
    TokenTree j ∧ ∀ c k, j.t[c]? = some k →
      if k.type = .obj ∨ k.type = .arr then ∃ L, Walks j c k L
      else jsonFirst j c = none ∧ ∀ key, jsonGet j c key = some none := by
  obtain ⟨rfl, hseg⟩ := jsonParse_seg h
  refine ⟨hseg.tree, fun c k hk => ?_⟩
  split
  · next htype => exact hseg.walks hk htype
  · next htype =>
    rw [not_or] at htype
    exact ⟨by simp [jsonFirst, hk, htype], fun key => by simp [jsonGet, hk, htype]⟩

theorem cap_first : 256 = 0 ∨ ∃ k ≤ 10, 256 = 256 * 2 ^ k := .inr ⟨0, by omega, rfl⟩

/-- What the parser makes of `[1,{"a":[2]}]`. -/
def nestedArrays : JsonDoc where
  s := [lbracket, 0x31, 0x2c, 0x7b, 0x22, 0x61, 0x22, 0x3a, lbracket, 0x32,
    rbracket, 0x7d, rbracket]
  t := [⟨.arr, 0, 13, some 6⟩, ⟨.num, 1, 2, some 2⟩, ⟨.obj, 3, 12, some 6⟩, ⟨.str, 5, 6, some 4⟩,
    ⟨.arr, 8, 11, some 6⟩, ⟨.num, 9, 10, some 6⟩]
  cap := ⟨256, cap_first⟩

/-- The document is a tree: the array has a number and an object, and the object a name and its
array. -/
theorem jsonParse_tree_array : jsonParse .empty nestedArrays.s = .ok nestedArrays ∧
    TokenTree nestedArrays ∧
    (∀ i, i ∈ [1, 2] ↔ IsChild nestedArrays 0 i) ∧ ∀ i, i ∈ [3, 4] ↔ IsChild nestedArrays 2 i := by
  have hparse : jsonParse .empty nestedArrays.s = .ok nestedArrays := rfl
  obtain ⟨htree, hwalks⟩ := jsonParse_tree _ _ _ hparse
  have hroot := hwalks 0 _ rfl
  have hobject := hwalks 2 _ rfl
  rw [if_pos (Or.inr rfl)] at hroot
  rw [if_pos (Or.inl rfl)] at hobject
  obtain ⟨L, hL⟩ := hroot
  obtain ⟨M, hM⟩ := hobject
  obtain rfl : [1, 2] = L := Option.some.inj hL.walk
  obtain rfl : [3, 4] = M := Option.some.inj hM.walk
  exact ⟨hparse, htree, hL.children, hM.children⟩

/-- What the parser makes of `{"\u0061":1}`. -/
def escapedName : JsonDoc where
  s := [0x7b, 0x22, 0x5c, 0x75, 0x30, 0x30, 0x36, 0x31, 0x22, 0x3a, 0x31, 0x7d]
  t := [⟨.obj, 0, 12, some 3⟩, ⟨.str, 2, 8, some 2⟩, ⟨.num, 10, 11, some 3⟩]
  cap := ⟨256, cap_first⟩

/-- The name of `{"\u0061":1}` stands for `a`, and asking for `a` finds nothing; its
two children make a length of one. -/
theorem jsonGet_escapedName :
    jsonParse .empty escapedName.s = .ok escapedName ∧
    (escapedName.t[1]?.map fun k => unescape (escapedName.text k)) = some [0x61] ∧
    jsonGet escapedName 0 [0x61] = some none ∧
    escapedName.walk 0 = some [1, 2] ∧ jsonLen escapedName 0 = some 1 := by
  refine ⟨rfl, by decide, by decide, by decide, by decide⟩

end Hassmic.Json
