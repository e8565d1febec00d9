import Hassmic.Ui.Scene

/-!
# Drawing only what changed

A frame that is drawn anew only inside the rectangle around what differs is the whole frame, as long
as two items that stayed do not change places where they overlap: outside the rectangle a pixel has
the items of the last frame, and must have them in the same order.  What stayed is the last item of
its id in the last frame, if it is the first of its id in the new one.

## Main definitions

* `Hull` — the pixels of the box around some rectangles.
* `Item.Kept`, `Changed` — what stayed, and what did not.
* `Redraws` — **drawing only what changed gives the whole picture**, however items are drawn.
* `InOrder` — the condition.

## Main results

* `has_diff` — the rectangle around what differs.
* `redraws_iff` — the whole picture, exactly if the order is kept.
-/

namespace Hassmic.Ui

open List Function

/-! ### Boxes around boxes -/

namespace Rect

theorem not_has_of_empty {r : Rect} (h : r.empty = true) (p : Point) : ¬ r.Has p := by
  unfold empty at h
  unfold Has
  simp only [Bool.or_eq_true, decide_eq_true_eq] at h
  omega

/-- The pixels of both. -/
theorem has_and (a b : Rect) (p : Point) : (a.and b).Has p ↔ a.Has p ∧ b.Has p := by
  unfold and
  dsimp only
  split
  case isTrue h =>
    constructor
    · intro hp
      exact absurd hp (not_has_of_empty (by decide) p)
    · rintro ⟨ha, hb⟩
      refine absurd ?_ (not_has_of_empty h p)
      unfold Has at ha hb ⊢
      dsimp only
      omega
  case isFalse =>
    unfold Has
    dsimp only
    omega

end Rect

/-- The pixels of the box around rectangles, of which empty ones count as nothing. -/
def Hull (boxes : Rect → Prop) (p : Point) : Prop :=
  (∃ r, boxes r ∧ r.empty = false ∧ r.x0 ≤ p.1) ∧ (∃ r, boxes r ∧ r.empty = false ∧ p.1 < r.x1) ∧
    (∃ r, boxes r ∧ r.empty = false ∧ r.y0 ≤ p.2) ∧ ∃ r, boxes r ∧ r.empty = false ∧ p.2 < r.y1

variable {boxes : Rect → Prop} {p : Point} {id : ℕ}

/-- A pixel of one is a pixel of the box around all. -/
theorem hull_of_has {r : Rect} (hr : boxes r) (hp : r.Has p) : Hull boxes p := by
  have hsome : r.empty = false := by
    rw [Bool.eq_false_iff]
    exact fun h => Rect.not_has_of_empty h p hp
  obtain ⟨h₁, h₂, h₃, h₄⟩ := hp
  exact ⟨⟨r, hr, hsome, h₁⟩, ⟨r, hr, hsome, h₂⟩, ⟨r, hr, hsome, h₃⟩, ⟨r, hr, hsome, h₄⟩⟩

theorem Hull.mono {boxes' : Rect → Prop} (h : ∀ r, boxes r → boxes' r) (hp : Hull boxes p) :
    Hull boxes' p := by
  obtain ⟨⟨a, ha, h₁⟩, ⟨b, hb, h₂⟩, ⟨c, hc, h₃⟩, ⟨d, hd, h₄⟩⟩ := hp
  exact ⟨⟨a, h a ha, h₁⟩, ⟨b, h b hb, h₂⟩, ⟨c, h c hc, h₃⟩, ⟨d, h d hd, h₄⟩⟩

/-- The rectangle is the box around these. -/
def Around (boxes : Rect → Prop) (d : Rect) : Prop :=
  (d.empty = true ∧ ∀ r, boxes r → r.empty = true) ∨
    (d.empty = false ∧ (∀ x, d.x0 ≤ x ↔ ∃ r, boxes r ∧ r.empty = false ∧ r.x0 ≤ x) ∧
      (∀ x, x < d.x1 ↔ ∃ r, boxes r ∧ r.empty = false ∧ x < r.x1) ∧
      (∀ y, d.y0 ≤ y ↔ ∃ r, boxes r ∧ r.empty = false ∧ r.y0 ≤ y) ∧
      ∀ y, y < d.y1 ↔ ∃ r, boxes r ∧ r.empty = false ∧ y < r.y1)

theorem Around.has {d : Rect} (h : Around boxes d) (p : Point) : d.Has p ↔ Hull boxes p := by
  rcases h with ⟨hempty, hall⟩ | ⟨-, h₁, h₂, h₃, h₄⟩
  · constructor
    · exact fun hp => absurd hp (Rect.not_has_of_empty hempty p)
    · rintro ⟨⟨r, hr, hsome, -⟩, -⟩
      rw [hall r hr] at hsome
      exact nomatch hsome
  · exact and_congr (h₁ p.1) (and_congr (h₂ p.1) (and_congr (h₃ p.2) (h₄ p.2)))

/-- One bound of two boxes. -/
theorem bound_or {b : Rect} (hb : b.empty = false) {P : Rect → Prop} {Q : Prop}
    (h : Q ↔ ∃ r, boxes r ∧ r.empty = false ∧ P r) :
    (Q ∨ P b) ↔ ∃ r, (boxes r ∨ r = b) ∧ r.empty = false ∧ P r := by
  rw [h]
  constructor
  · rintro (⟨r, hr, hsome, hP⟩ | hP)
    · exact ⟨r, .inl hr, hsome, hP⟩
    · exact ⟨b, .inr rfl, hb, hP⟩
  · rintro ⟨r, hr | rfl, hsome, hP⟩
    · exact .inl ⟨r, hr, hsome, hP⟩
    · exact .inr hP

/-- One box more. -/
theorem Around.or {d : Rect} (h : Around boxes d) (b : Rect) :
    Around (fun r => boxes r ∨ r = b) (d.or b) := by
  unfold Rect.or
  rcases h with ⟨hempty, hall⟩ | ⟨hsome, h₁, h₂, h₃, h₄⟩
  · rw [if_pos hempty]
    cases hb : b.empty with
    | true =>
      refine .inl ⟨hb, fun r hr => ?_⟩
      rcases hr with hr | rfl
      · exact hall r hr
      · exact hb
    | false =>
      have hbound : ∀ {P : Rect → Prop}, P b ↔ ∃ r, (boxes r ∨ r = b) ∧ r.empty = false ∧ P r := by
        intro P
        have hnone : False ↔ ∃ r, boxes r ∧ r.empty = false ∧ P r := by
          refine ⟨False.elim, ?_⟩
          rintro ⟨r, hr, hsome, -⟩
          rw [hall r hr] at hsome
          exact nomatch hsome
        have hbound := bound_or hb hnone
        rwa [false_or] at hbound
      exact .inr ⟨hb, fun x => hbound (P := fun r => r.x0 ≤ x), fun x =>
        hbound (P := fun r => x < r.x1), fun y => hbound (P := fun r => r.y0 ≤ y), fun y =>
          hbound (P := fun r => y < r.y1)⟩
  · rw [if_neg (by rw [hsome]; decide)]
    cases hb : b.empty with
    | true =>
      have hsame : ∀ {P : Rect → Prop}, (∃ r, boxes r ∧ r.empty = false ∧ P r) ↔
          ∃ r, (boxes r ∨ r = b) ∧ r.empty = false ∧ P r := by
        intro P
        constructor
        · rintro ⟨r, hr, hP⟩
          exact ⟨r, .inl hr, hP⟩
        · rintro ⟨r, hr | rfl, hr', hP⟩
          · exact ⟨r, hr, hr', hP⟩
          · rw [hb] at hr'
            exact nomatch hr'
      rw [if_pos rfl]
      exact .inr ⟨hsome, fun x => (h₁ x).trans hsame, fun x => (h₂ x).trans hsame, fun y =>
        (h₃ y).trans hsame, fun y => (h₄ y).trans hsame⟩
    | false =>
      rw [if_neg (by decide)]
      refine .inr ⟨?_, fun x => ?_, fun x => ?_, fun y => ?_, fun y => ?_⟩
      · unfold Rect.empty at hsome hb ⊢
        simp only [Bool.or_eq_false_iff, decide_eq_false_iff_not, not_le] at hsome hb ⊢
        omega
      · exact (min_le_iff).trans (bound_or hb (h₁ x))
      · exact (lt_max_iff).trans (bound_or hb (h₂ x))
      · exact (min_le_iff).trans (bound_or hb (h₃ y))
      · exact (lt_max_iff).trans (bound_or hb (h₄ y))

/-- Boxes one by one. -/
theorem Around.foldl {d : Rect} (h : Around boxes d) (l : List Rect) :
    Around (fun r => boxes r ∨ r ∈ l) (l.foldl Rect.or d) := by
  induction l generalizing boxes d with
  | nil =>
    have hsame : (fun r => boxes r ∨ r ∈ ([] : List Rect)) = boxes := by
      funext r
      simp
    rw [hsame]
    exact h
  | cons b l ih =>
    have hsame : (fun r => boxes r ∨ r ∈ b :: l) = fun r => (boxes r ∨ r = b) ∨ r ∈ l := by
      funext r
      rw [mem_cons, or_assoc]
    rw [hsame, foldl_cons]
    exact ih (h.or b)

/-- The box around a list of boxes. -/
theorem has_foldl_or (l : List Rect) (p : Point) : (l.foldl Rect.or Rect.none).Has p ↔
    Hull (· ∈ l) p := by
  have hnone : Around (fun _ => False) Rect.none := .inl ⟨by decide, fun _ h => h.elim⟩
  have hall := hnone.foldl l
  simp only [false_or] at hall
  exact hall.has p

/-! ### What stayed -/

variable {α : Type}

/-- The last item with an id. -/
def lastOf (l : List (Item α)) (id : ℕ) : Option (Item α) := (l.filter fun a => a.id = id).getLast?

/-- The first item with an id. -/
def firstOf (l : List (Item α)) (id : ℕ) : Option (Item α) := l.find? fun a => a.id = id

/-- An item that stayed: the last of its id is the first of it now. -/
def Item.Kept (old new : List (Item α)) (a : Item α) : Prop :=
  lastOf old a.id = some a ∧ firstOf new a.id = some a

/-- An item of one of the frames that did not stay, or is there once more. -/
def Changed (old new : List (Item α)) (a : Item α) : Prop :=
  (∃ pre post, old = pre ++ a :: post ∧ (a.id ∈ post.map Item.id ∨ ¬ a.Kept old new)) ∨
    ∃ pre post, new = pre ++ a :: post ∧ (a.id ∈ pre.map Item.id ∨ ¬ a.Kept old new)

/-- The boxes of these. -/
def ChangedBox (old new : List (Item α)) (r : Rect) : Prop := ∃ a, Changed old new a ∧ r = a.box

variable {a : Item α} {post pre : List (Item α)}

theorem lastOf_split (h : a.id ∉ post.map Item.id) :
    lastOf (pre ++ a :: post) a.id = some a := by
  have hpost : (post.filter fun b => b.id = a.id) = [] := by
    rw [filter_eq_nil_iff]
    intro b hb hid
    exact h (mem_map.mpr ⟨b, hb, of_decide_eq_true hid⟩)
  unfold lastOf
  rw [filter_append, filter_cons_of_pos (by exact decide_eq_true rfl), hpost, getLast?_append]
  rfl

theorem firstOf_split {b : Item α} (h : b.id ∉ pre.map Item.id) :
    firstOf (pre ++ b :: post) b.id = some b := by
  have hpre : (pre.find? fun a => a.id = b.id) = none := by
    rw [find?_eq_none]
    intro a ha hid
    exact h (mem_map.mpr ⟨a, ha, of_decide_eq_true hid⟩)
  unfold firstOf
  rw [find?_append, hpre, find?_cons_of_pos (by exact decide_eq_true rfl)]
  rfl

variable {l : List (Item α)}

/-- The last item of an id has none behind it. -/
theorem exists_last (h : id ∈ l.map Item.id) :
    ∃ pre a post, l = pre ++ a :: post ∧ a.id = id ∧ id ∉ post.map Item.id := by
  induction l with
  | nil => exact absurd h not_mem_nil
  | cons b l ih =>
    by_cases hl : id ∈ l.map Item.id
    · obtain ⟨pre, a, post, rfl, hid, hpost⟩ := ih hl
      exact ⟨b :: pre, a, post, rfl, hid, hpost⟩
    · rcases mem_cons.mp (by rwa [map_cons] at h) with hid | hid
      · exact ⟨[], b, l, rfl, hid.symm, hl⟩
      · exact absurd hid hl

theorem exists_first (h : id ∈ l.map Item.id) :
    ∃ pre b post, l = pre ++ b :: post ∧ b.id = id ∧ id ∉ pre.map Item.id := by
  induction l with
  | nil => exact absurd h not_mem_nil
  | cons c l ih =>
    by_cases hid : c.id = id
    · exact ⟨[], c, l, rfl, hid, not_mem_nil⟩
    · rcases mem_cons.mp (by rwa [map_cons] at h) with hc | hl
      · exact absurd hc.symm hid
      · obtain ⟨pre, b, post, rfl, hb, hpre⟩ := ih hl
        refine ⟨c :: pre, b, post, rfl, hb, ?_⟩
        rw [map_cons, mem_cons, not_or]
        exact ⟨fun h => hid h.symm, hpre⟩

/-! ### The rectangle around what differs -/

/-- One item more, at the end. -/
theorem index_concat (l : List (Item α)) (a : Item α) :
    index (l ++ [a]) = update (index l) a.id (some (l.length, a)) := by
  unfold index
  rw [zipIdx_append, foldl_append]
  simp

theorem index_none (h : id ∉ l.map Item.id) : index l id = none := by
  induction l using List.reverseRecOn with
  | nil => rfl
  | append_singleton l a ih =>
    rw [map_append, mem_append, not_or] at h
    rw [index_concat,
      update_of_ne (fun hid => h.2 (by rw [hid]; exact mem_singleton_self _)), ih h.1]

theorem index_split (h : a.id ∉ post.map Item.id) :
    index (pre ++ a :: post) a.id = some (pre.length, a) := by
  induction post using List.reverseRecOn with
  | nil => rw [index_concat, update_self]
  | append_singleton post b ih =>
    rw [map_append, mem_append, not_or] at h
    have hassoc : pre ++ a :: (post ++ [b]) = (pre ++ a :: post) ++ [b] := by
      rw [append_assoc, cons_append]
    rw [hassoc, index_concat,
      update_of_ne (fun hid => h.2 (by rw [hid]; exact mem_singleton_self _)), ih h.1]

/-- The last place of an id, and the item there. -/
theorem of_index {j : ℕ} (h : index l id = some (j, a)) :
    ∃ pre post, l = pre ++ a :: post ∧ pre.length = j ∧ a.id = id ∧ id ∉ post.map Item.id := by
  by_cases hid : id ∈ l.map Item.id
  · obtain ⟨pre, b, post, rfl, rfl, hpost⟩ := exists_last hid
    rw [index_split hpost] at h
    obtain ⟨rfl, rfl⟩ := Prod.mk.inj (Option.some.inj h)
    exact ⟨pre, post, rfl, rfl, rfl, hpost⟩
  · rw [index_none hid] at h
    exact nomatch h

theorem index_lastOf (l : List (Item α)) (id : ℕ) : (index l id).map Prod.snd = lastOf l id := by
  by_cases hid : id ∈ l.map Item.id
  · obtain ⟨pre, a, post, rfl, rfl, hpost⟩ := exists_last hid
    rw [index_split hpost, lastOf_split hpost]
    rfl
  · have hnone : (l.filter fun a => a.id = id) = [] := by
      rw [filter_eq_nil_iff]
      intro a ha hsame
      exact hid (mem_map.mpr ⟨a, ha, of_decide_eq_true hsame⟩)
    rw [index_none hid, lastOf, hnone]
    rfl

/-- A place is that of one id. -/
theorem index_inj {id' j : ℕ} {a' : Item α} (h : index l id = some (j, a))
    (h' : index l id' = some (j, a')) : id = id' := by
  obtain ⟨pre, post, hl, hlen, hid, -⟩ := of_index h
  obtain ⟨pre', post', hl', hlen', hid', -⟩ := of_index h'
  obtain ⟨-, hrest⟩ := append_inj (hl.symm.trans hl') (hlen.trans hlen'.symm)
  rw [← hid, ← hid', (List.cons.inj hrest).1]

/-- The places that were compared are those of these ids. -/
def Seen (old : List (Item α)) (ids : List ℕ) (s : Diff) : Prop :=
  ∀ j, s.seen j = true ↔ ∃ id ∈ ids, ∃ a, index old id = some (j, a)

theorem Seen.mem {old : List (Item α)} {ids : List ℕ} {s : Diff} (h : Seen old ids s) {j : ℕ}
    (hidx : index old id = some (j, a)) : s.seen j = true ↔ id ∈ ids := by
  rw [h j]
  constructor
  · rintro ⟨id', hid', a', hidx'⟩
    rw [index_inj hidx hidx']
    exact hid'
  · exact fun hid => ⟨id, hid, a, hidx⟩

section diff

variable [DecidableEq α]

/-- The boxes that an item of the new frame adds, behind the ids that came before it. -/
def itemBoxes (old : List (Item α)) (ids : List ℕ) (b : Item α) : List Rect :=
  match index old b.id with
  | none => [b.box]
  | some (_, a) => if b.id ∈ ids then [b.box] else if a = b then [] else [a.box, b.box]

def newBoxes (old : List (Item α)) : List ℕ → List (Item α) → List Rect
  | _, [] => []
  | ids, b :: l => itemBoxes old ids b ++ newBoxes old (b.id :: ids) l

variable {ids : List ℕ} {old : List (Item α)}

/-- An item of the new frame. -/
theorem diffItem_eq {s : Diff} (h : Seen old ids s) (b : Item α) :
    (diffItem old s b).d = (itemBoxes old ids b).foldl Rect.or s.d ∧ Seen old (b.id :: ids)
      (diffItem old s b) := by
  unfold diffItem itemBoxes
  cases hidx : index old b.id with
  | none =>
    refine ⟨rfl, fun j => (h j).trans ?_⟩
    constructor
    · rintro ⟨id, hid, hplace⟩
      exact ⟨id, mem_cons_of_mem _ hid, hplace⟩
    · rintro ⟨id, hid, a, hplace⟩
      rcases mem_cons.mp hid with rfl | hid
      · rw [hidx] at hplace
        exact nomatch hplace
      · exact ⟨id, hid, a, hplace⟩
  | some x =>
    obtain ⟨j, a⟩ := x
    dsimp only
    -- an id drawn twice: its second goes by box
    by_cases hseen : s.seen j = true
    · have hid := (h.mem hidx).mp hseen
      rw [if_pos hseen, if_pos hid]
      refine ⟨rfl, fun k => (h k).trans ?_⟩
      constructor
      · rintro ⟨id, hid, hplace⟩
        exact ⟨id, mem_cons_of_mem _ hid, hplace⟩
      · rintro ⟨id, hmem, hplace⟩
        rcases mem_cons.mp hmem with rfl | hmem
        · exact ⟨_, hid, hplace⟩
        · exact ⟨id, hmem, hplace⟩
    · have hid : b.id ∉ ids := fun hid => hseen ((h.mem hidx).mpr hid)
      rw [if_neg hseen, if_neg hid]
      constructor
      · split
        · rfl
        · rfl
      · intro k
        dsimp only
        by_cases hk : k = j
        · subst hk
          rw [update_self]
          exact iff_of_true rfl ⟨b.id, mem_cons_self, a, hidx⟩
        · rw [update_of_ne hk, h k]
          constructor
          · rintro ⟨id, hid, hplace⟩
            exact ⟨id, mem_cons_of_mem _ hid, hplace⟩
          · rintro ⟨id, hmem, a', hplace⟩
            rcases mem_cons.mp hmem with rfl | hmem
            · rw [hidx] at hplace
              exact absurd (Prod.mk.inj (Option.some.inj hplace)).1.symm hk
            · exact ⟨id, hmem, a', hplace⟩

/-- All of them. -/
theorem foldl_diffItem {s : Diff} (h : Seen old ids s) (l : List (Item α)) :
    (l.foldl (diffItem old) s).d = (newBoxes old ids l).foldl Rect.or s.d ∧
      ∀ j, (l.foldl (diffItem old) s).seen j = true ↔ ∃ id, (id ∈ ids ∨ id ∈ l.map Item.id) ∧
        ∃ a, index old id = some (j, a) := by
  induction l generalizing ids s with
  | nil => exact ⟨rfl, fun j => (h j).trans (by simp)⟩
  | cons b l ih =>
    obtain ⟨hd, hseen⟩ := diffItem_eq h b
    obtain ⟨hd', hseen'⟩ := ih hseen
    rw [foldl_cons]
    constructor
    · rw [hd', hd, ← foldl_append]
      rfl
    · intro j
      rw [hseen' j, map_cons]
      refine exists_congr fun id => and_congr_left fun _ => ?_
      rw [mem_cons, mem_cons, or_assoc, or_left_comm]

/-- The boxes of the last frame that are added. -/
def oldBoxes (old new : List (Item α)) : List Rect :=
  (old.zipIdx.filter fun x => !(new.foldl (diffItem old) {}).seen x.2).map fun x => x.1.box

theorem diff_eq (old new : List (Item α)) :
    diff old new = (newBoxes old [] new ++ oldBoxes old new).foldl Rect.or Rect.none := by
  have hnone : Seen old [] ({} : Diff) := by
    intro j
    constructor
    · exact fun h => nomatch h
    · rintro ⟨id, hid, -⟩
      exact absurd hid not_mem_nil
  obtain ⟨hd, -⟩ := foldl_diffItem hnone new
  unfold diff oldBoxes
  dsimp only
  generalize hs : new.foldl (diffItem old) {} = s at hd
  rw [foldl_append, hd]
  generalize (newBoxes old [] new).foldl Rect.or _ = d
  induction old.zipIdx generalizing d with
  | nil => rfl
  | cons x l ih =>
    rw [foldl_cons, ih]
    cases hx : s.seen x.2 with
    | true =>
      rw [if_pos rfl, filter_cons_of_neg (by rw [hx]; decide)]
    | false =>
      rw [if_neg (by decide), filter_cons_of_pos (by rw [hx]; decide), map_cons, foldl_cons]

/-- The boxes of the new frame. -/
theorem mem_newBoxes {l : List (Item α)} {r : Rect} :
    r ∈ newBoxes old ids l ↔ ∃ pre b post, l = pre ++ b :: post ∧
      r ∈ itemBoxes old ((pre.map Item.id).reverse ++ ids) b := by
  induction l generalizing ids with
  | nil =>
    constructor
    · exact fun h => absurd h not_mem_nil
    · rintro ⟨pre, b, post, h, -⟩
      exact absurd h (by simp)
  | cons c l ih =>
    unfold newBoxes
    rw [mem_append, ih]
    constructor
    · rintro (h | ⟨pre, b, post, rfl, h⟩)
      · exact ⟨[], c, l, rfl, h⟩
      · refine ⟨c :: pre, b, post, rfl, ?_⟩
        rw [map_cons, reverse_cons, append_assoc]
        exact h
    · rintro ⟨pre, b, post, hl, h⟩
      cases pre with
      | nil =>
        obtain ⟨rfl, rfl⟩ := List.cons.inj hl
        exact .inl h
      | cons c' pre =>
        obtain ⟨rfl, rfl⟩ := List.cons.inj hl
        rw [map_cons, reverse_cons, append_assoc] at h
        exact .inr ⟨pre, b, post, rfl, h⟩

/-- The boxes of the last frame. -/
theorem mem_oldBoxes {new : List (Item α)} {r : Rect} :
    r ∈ oldBoxes old new ↔ ∃ pre a post, old = pre ++ a :: post ∧
      (a.id ∈ post.map Item.id ∨ a.id ∉ new.map Item.id) ∧ r = a.box := by
  have hnone : Seen old [] ({} : Diff) := by
    intro j
    constructor
    · exact fun h => nomatch h
    · rintro ⟨id, hid, -⟩
      exact absurd hid not_mem_nil
  obtain ⟨-, hseen⟩ := foldl_diffItem hnone new
  unfold oldBoxes
  rw [mem_map]
  constructor
  · rintro ⟨⟨a, j⟩, hx, rfl⟩
    obtain ⟨hmem, hno⟩ := mem_filter.mp hx
    obtain ⟨pre, post, hold, hlen⟩ : ∃ pre post, old = pre ++ a :: post ∧ pre.length = j := by
      obtain ⟨hlt, hget⟩ := List.getElem?_eq_some_iff.mp (mem_zipIdx_iff_getElem?.mp hmem)
      have hsplit := (take_append_drop j old).symm
      rw [drop_eq_getElem_cons hlt, hget] at hsplit
      exact ⟨old.take j, old.drop (j + 1), hsplit, length_take_of_le hlt.le⟩
    refine ⟨pre, a, post, hold, ?_, rfl⟩
    by_contra hboth
    obtain ⟨hpost, hnew⟩ := not_or.mp hboth
    have hyes :=
      (hseen j).mpr ⟨a.id, .inr (not_not.mp hnew), a, by rw [hold, index_split hpost, hlen]⟩
    rw [hyes] at hno
    exact nomatch hno
  · rintro ⟨pre, a, post, hold, hleft, rfl⟩
    refine ⟨(a, pre.length), mem_filter.mpr ⟨?_, ?_⟩, rfl⟩
    · rw [mem_zipIdx_iff_getElem?, hold, getElem?_append_right le_rfl, Nat.sub_self]
      rfl
    · rw [Bool.not_eq_true', Bool.eq_false_iff]
      intro hyes
      obtain ⟨id, hid, a', hidx⟩ := (hseen pre.length).mp hyes
      obtain ⟨pre', post', hold', hlen, rfl, hpost⟩ := of_index hidx
      obtain ⟨-, hrest⟩ := append_inj (hold.symm.trans hold') hlen.symm
      obtain ⟨rfl, rfl⟩ := List.cons.inj hrest
      rcases hleft with hlast | hnew
      · exact hpost hlast
      · rcases hid with hid | hid
        · exact not_mem_nil hid
        · exact hnew hid

/-- What an item of the new frame adds did not stay. -/
theorem changed_of_itemBoxes {new pre post : List (Item α)} {b : Item α} {r : Rect}
    (hnew : new = pre ++ b :: post) (hr : r ∈ itemBoxes old (pre.map Item.id).reverse b) :
    ChangedBox old new r := by
  unfold itemBoxes at hr
  have hlast := index_lastOf old b.id
  cases hidx : index old b.id with
  | none =>
    rw [hidx] at hr hlast
    obtain rfl := mem_singleton.mp hr
    refine ⟨b, .inr ⟨pre, post, hnew, .inr fun hkept => ?_⟩, rfl⟩
    exact nomatch hlast.trans hkept.1
  | some x =>
    obtain ⟨j, a⟩ := x
    rw [hidx] at hr hlast
    dsimp only at hr
    by_cases hbefore : b.id ∈ pre.map Item.id
    · rw [if_pos (mem_reverse.mpr hbefore)] at hr
      obtain rfl := mem_singleton.mp hr
      exact ⟨b, .inr ⟨pre, post, hnew, .inl hbefore⟩, rfl⟩
    · rw [if_neg (fun h => hbefore (mem_reverse.mp h))] at hr
      split at hr
      case isTrue => exact absurd hr not_mem_nil
      case isFalse hne =>
        obtain ⟨pre', post', hold, -, hid, -⟩ := of_index hidx
        rcases mem_cons.mp hr with rfl | hr
        · refine ⟨a, .inl ⟨pre', post', hold, .inr fun hkept => hne ?_⟩, rfl⟩
          have hfirst := hkept.2
          rw [hid, hnew, firstOf_split hbefore] at hfirst
          exact (Option.some.inj hfirst).symm
        · obtain rfl := mem_singleton.mp hr
          refine ⟨b, .inr ⟨pre, post, hnew, .inr fun hkept => hne ?_⟩, rfl⟩
          exact Option.some.inj (hlast.trans hkept.1)

/-- **The rectangle around what differs** is the box around all items that did not stay. -/
theorem has_diff (old new : List (Item α)) (p : Point) :
    (diff old new).Has p ↔ Hull (ChangedBox old new) p := by
  rw [diff_eq, has_foldl_or]
  constructor
  · refine Hull.mono fun r hr => ?_
    rcases mem_append.mp hr with hr | hr
    · obtain ⟨pre, b, post, hnew, hb⟩ := mem_newBoxes.mp hr
      rw [append_nil] at hb
      exact changed_of_itemBoxes hnew hb
    · obtain ⟨pre, a, post, hold, hleft, rfl⟩ := mem_oldBoxes.mp hr
      refine ⟨a, .inl ⟨pre, post, hold, hleft.imp_right fun hno hkept => ?_⟩, rfl⟩
      have hmem := mem_of_find?_eq_some hkept.2
      exact hno (mem_map_of_mem hmem)
  · refine Hull.mono ?_
    rintro r ⟨a, hchanged, rfl⟩
    rw [mem_append, mem_newBoxes, mem_oldBoxes]
    rcases hchanged with ⟨pre, post, hold, hleft⟩ | ⟨pre, post, hnew, hleft⟩
    · by_cases hlast : a.id ∈ post.map Item.id
      · exact .inr ⟨pre, a, post, hold, .inl hlast, rfl⟩
      · by_cases hmem : a.id ∈ new.map Item.id
        · -- the first of its id now is another
          obtain ⟨pre', b, post', hnew, hid, hfirst⟩ := exists_first hmem
          rw [← hid] at hfirst
          have hidx : index old b.id = some (pre.length, a) := by rw [hid, hold, index_split hlast]
          have hne : a ≠ b := by
            rintro rfl
            refine hleft.elim hlast fun hno => hno ⟨?_, ?_⟩
            · rw [hold, lastOf_split hlast]
            · rw [hnew, firstOf_split hfirst]
          refine .inl ⟨pre', b, post', hnew, ?_⟩
          unfold itemBoxes
          rw [hidx]
          dsimp only
          rw [append_nil, if_neg (fun h => hfirst (mem_reverse.mp h)), if_neg hne]
          exact mem_cons_self
        · exact .inr ⟨pre, a, post, hold, .inr hmem, rfl⟩
    · refine .inl ⟨pre, a, post, hnew, ?_⟩
      unfold itemBoxes
      rw [append_nil]
      -- it is new, or it was another before
      cases hidx : index old a.id with
      | none => exact mem_singleton_self _
      | some x =>
        obtain ⟨j, c⟩ := x
        dsimp only
        by_cases hbefore : a.id ∈ pre.map Item.id
        · rw [if_pos (mem_reverse.mpr hbefore)]
          exact mem_singleton_self _
        · have hne : c ≠ a := by
            rintro rfl
            refine hleft.elim hbefore fun hno => hno ⟨?_, ?_⟩
            · rw [← index_lastOf, hidx]
              rfl
            · rw [hnew, firstOf_split hbefore]
          rw [if_neg (fun h => hbefore (mem_reverse.mp h)), if_neg hne]
          exact mem_cons_of_mem _ (mem_singleton_self _)

end diff

/-! ### A pixel -/

/-- An item can change a pixel. -/
def Item.Reaches (a : Item α) (p : Point) : Prop := a.box.Has p ∧ a.clip.Has p

instance (a : Item α) (p : Point) : Decidable (a.Reaches p) := inferInstanceAs (Decidable (_ ∧ _))

/-- The items that reach a pixel, in their order. -/
def reaching (l : List (Item α)) (p : Point) : List (Item α) := l.filter fun a => a.Reaches p

theorem mem_reaching : a ∈ reaching l p ↔ a ∈ l ∧ a.Reaches p := by
  unfold reaching
  rw [mem_filter, decide_eq_true_eq]

section draw

variable {C : Type} (draw : Item α → Point → C → C)

/-- What they make of the pixel. -/
def colour (l : List (Item α)) (p : Point) (c : C) : C :=
  (reaching l p).foldl (fun c a => draw a p c) c

/-- **A list is drawn pixel by pixel.** -/
theorem sceneDraw_apply (frame : Rect) (l : List (Item α)) (pic : Point → C) (p : Point) :
    sceneDraw draw frame l pic p = if frame.Has p then colour draw l p (pic p) else pic p := by
  unfold sceneDraw colour reaching
  induction l generalizing pic with
  | nil => exact (ite_self _).symm
  | cons a l ih =>
    have hitem : drawItem draw frame pic a p = if frame.Has p ∧ a.Reaches p then draw a p (pic p)
        else pic p := by
      have hhas : (a.box.and (frame.and a.clip)).Has p ↔ frame.Has p ∧ a.Reaches p := by
        rw [Rect.has_and, Rect.has_and]
        unfold Item.Reaches
        tauto
      unfold drawItem
      split
      case isTrue hempty => rw [if_neg (fun h => Rect.not_has_of_empty hempty p (hhas.mpr h))]
      case isFalse => exact if_congr hhas rfl rfl
    rw [foldl_cons, ih, hitem]
    by_cases hframe : frame.Has p
    · rw [if_pos hframe, if_pos hframe]
      by_cases hreach : a.Reaches p
      · rw [if_pos ⟨hframe, hreach⟩,
          filter_cons_of_pos (by exact decide_eq_true hreach), foldl_cons]
      · rw [if_neg (fun h => hreach h.2), filter_cons_of_neg (by simpa using hreach)]
    · rw [if_neg hframe, if_neg hframe, if_neg (fun h => hframe h.1)]

end draw

/-- Two items of a list, one before the other. -/
theorem split_of_pair {x y : Item α} (h : [x, y].Sublist l) :
    ∃ pre post, l = pre ++ x :: post ∧ y ∈ post := by
  obtain ⟨r₁, r₂, rfl, hx, hy⟩ := cons_sublist_iff.mp h
  obtain ⟨pre, mid, rfl⟩ := append_of_mem hx
  refine ⟨pre, mid ++ r₂, by rw [append_assoc, cons_append], mem_append_right _ ?_⟩
  exact singleton_sublist.mp hy

/-- Lists with the same items, each once, are the same if no two items change places. -/
theorem eq_of_order {l' : List (Item α)} (hl : l.Nodup) (hl' : l'.Nodup)
    (hmem : ∀ a, a ∈ l ↔ a ∈ l') (h : ∀ x y, [x, y].Sublist l → ¬ [y, x].Sublist l') : l = l' := by
  induction l generalizing l' with
  | nil =>
    cases l' with
    | nil => rfl
    | cons b l' => exact absurd ((hmem b).mpr mem_cons_self) not_mem_nil
  | cons a l ih =>
    obtain ⟨pre, post, rfl⟩ := append_of_mem ((hmem a).mp mem_cons_self)
    cases pre with
    | cons b pre =>
      -- the first one would have gone behind another
      have hne : b ≠ a := by
        rintro rfl
        exact (nodup_cons.mp hl').1 (mem_append_right _ mem_cons_self)
      have hb : b ∈ l := (mem_cons.mp ((hmem b).mpr mem_cons_self)).resolve_left hne
      have hyx : [b, a].Sublist (b :: pre ++ a :: post) :=
        (singleton_sublist.mpr (mem_append_right _ mem_cons_self)).cons_cons b
      exact absurd hyx (h a b ((singleton_sublist.mpr hb).cons_cons a))
    | nil =>
      obtain ⟨ha, hnodup⟩ := nodup_cons.mp hl
      obtain ⟨ha', hnodup'⟩ := nodup_cons.mp hl'
      rw [nil_append]
      congr 1
      refine ih hnodup hnodup' (fun b => ?_) fun x y hxy hyx => h x y (hxy.cons a) (hyx.cons a)
      constructor
      · intro hb
        exact (mem_cons.mp ((hmem b).mp (mem_cons_of_mem a hb))).resolve_left
          fun hab => ha (hab ▸ hb)
      · intro hb
        exact (mem_cons.mp ((hmem b).mpr (mem_cons_of_mem a hb))).resolve_left
          fun hab => ha' (hab ▸ hb)

/-- No item is before and behind another. -/
theorem not_both (hl : l.Nodup) {x y : Item α} (hxy : [x, y].Sublist l) : ¬ [y, x].Sublist l := by
  induction l with
  | nil => exact absurd (hxy.subset mem_cons_self) not_mem_nil
  | cons a l ih =>
    obtain ⟨ha, hnodup⟩ := nodup_cons.mp hl
    intro hyx
    rcases sublist_cons_iff.mp hxy with hrest | ⟨r, hr, hy⟩
    · rcases sublist_cons_iff.mp hyx with hrest' | ⟨r, hr, -⟩
      · exact ih hnodup hrest hrest'
      · obtain ⟨rfl, -⟩ := List.cons.inj hr
        exact ha (hrest.subset (mem_cons_of_mem x mem_cons_self))
    · obtain ⟨rfl, rfl⟩ := List.cons.inj hr
      have hmem : y ∈ l := hy.subset mem_cons_self
      rcases sublist_cons_iff.mp hyx with hrest | ⟨r, hr, -⟩
      · exact ha (hrest.subset (mem_cons_of_mem y mem_cons_self))
      · obtain ⟨rfl, -⟩ := List.cons.inj hr
        exact ha hmem

section redraws

/-- **Drawing only what changed gives the whole picture**: however items are drawn, as long as the
new frame covers the screen whatever was there before. -/
def Redraws [DecidableEq α] (screen : Rect) (old new : List (Item α)) : Prop :=
  ∀ (C : Type) (draw : Item α → Point → C → C),
    (∀ p, screen.Has p → ∀ c c', colour draw new p c = colour draw new p c') →
    ∀ (base base' : Point → C) (p : Point), screen.Has p →
      sceneDraw draw (redrawn false screen old new) new (sceneDraw draw screen old base) p =
        sceneDraw draw screen new base' p

/-- No two items that reach a pixel outside the box around what changed change places. -/
def InOrder (screen : Rect) (old new : List (Item α)) : Prop :=
  ∀ p, screen.Has p → ¬ Hull (ChangedBox old new) p → ∀ x y : Item α, x.Reaches p → y.Reaches p →
    [x, y].Sublist old → ¬ [y, x].Sublist new

section outside

variable {old new : List (Item α)} {p : Point} (hp : ¬ Hull (ChangedBox old new) p)
include hp

/-- What reaches a pixel outside has not changed. -/
theorem not_changed {a : Item α} (ha : a.Reaches p) : ¬ Changed old new a :=
  fun hchanged => hp (hull_of_has ⟨a, hchanged, rfl⟩ ha.1)

/-- It is in both frames, each time once. -/
theorem reaching_old : (reaching old p).Nodup ∧ ∀ a ∈ reaching old p, a ∈ reaching new p := by
  constructor
  · rw [nodup_iff_sublist]
    intro a hpair
    have ha := mem_reaching.mp (hpair.subset mem_cons_self)
    obtain ⟨pre, post, hold, hmem⟩ := split_of_pair (hpair.trans filter_sublist)
    exact not_changed hp ha.2 (.inl ⟨pre, post, hold, .inl (mem_map_of_mem hmem)⟩)
  · intro a ha
    obtain ⟨hmem, hreach⟩ := mem_reaching.mp ha
    obtain ⟨pre, post, hold⟩ := append_of_mem hmem
    by_contra hno
    refine not_changed hp hreach (.inl ⟨pre, post, hold, .inr fun hkept => hno ?_⟩)
    exact mem_reaching.mpr ⟨mem_of_find?_eq_some hkept.2, hreach⟩

theorem reaching_new : (reaching new p).Nodup ∧ ∀ a ∈ reaching new p, a ∈ reaching old p := by
  constructor
  · rw [nodup_iff_sublist]
    intro a hpair
    have ha := mem_reaching.mp (hpair.subset mem_cons_self)
    obtain ⟨r₁, r₂, hnew, hfirst, hsecond⟩ := cons_sublist_iff.mp (hpair.trans filter_sublist)
    obtain ⟨mid, post, rfl⟩ := append_of_mem (singleton_sublist.mp hsecond)
    refine not_changed hp ha.2 (.inr ⟨r₁ ++ mid, post, ?_, .inl ?_⟩)
    · rw [hnew, append_assoc]
    · exact mem_map_of_mem (mem_append_left _ hfirst)
  · intro a ha
    obtain ⟨hmem, hreach⟩ := mem_reaching.mp ha
    obtain ⟨pre, post, hnew⟩ := append_of_mem hmem
    by_contra hno
    refine not_changed hp hreach (.inr ⟨pre, post, hnew, .inr fun hkept => hno ?_⟩)
    exact mem_reaching.mpr ⟨mem_of_mem_filter (mem_of_getLast? hkept.1), hreach⟩

end outside

/-- **Outside the box around what changed, a pixel has the same items in the same order.** -/
theorem inOrder_iff (screen : Rect) (old new : List (Item α)) :
    InOrder screen old new ↔
      ∀ p, screen.Has p → ¬ Hull (ChangedBox old new) p → reaching old p = reaching new p := by
  constructor
  · intro h p hscreen hp
    obtain ⟨hnodup, hsub⟩ := reaching_old hp
    obtain ⟨hnodup', hsub'⟩ := reaching_new hp
    refine eq_of_order hnodup hnodup' (fun a => ⟨hsub a, hsub' a⟩) fun x y hxy hyx => ?_
    have hx := (mem_reaching.mp (hxy.subset mem_cons_self)).2
    have hy := (mem_reaching.mp (hyx.subset mem_cons_self)).2
    exact h p hscreen hp x y hx hy (hxy.trans filter_sublist) (hyx.trans filter_sublist)
  · intro h p hscreen hp x y hx hy hxy hyx
    have hsame := h p hscreen hp
    obtain ⟨hnodup, -⟩ := reaching_old hp
    have hpair : ∀ {l : List (Item α)} {a b : Item α}, a.Reaches p → b.Reaches p →
        [a, b].Sublist l →
        [a, b].Sublist (reaching l p) := by
      intro l a b ha hb hab
      have hfilter := hab.filter fun a => decide (a.Reaches p)
      rwa [filter_cons_of_pos (by exact decide_eq_true ha),
        filter_cons_of_pos (by exact decide_eq_true hb), filter_nil] at hfilter
    have hold := hpair hx hy hxy
    have hnew := hpair hy hx hyx
    rw [← hsame] at hnew
    exact not_both hnodup hold hnew

section iff

variable [DecidableEq α]

/-- A way to draw that shows each item and the order: a pixel is the items that reach it, on top of
the lowest of the new frame. -/
def showing (new : List (Item α)) (a : Item α) (p : Point) (c : List (Item α)) : List (Item α) :=
  if (reaching new p).head? = some a then [a] else a :: c

/-- Above the lowest one all are shown. -/
theorem foldl_showing {new : List (Item α)} {p : Point} {a : Item α} {l : List (Item α)}
    (hnew : (reaching new p).head? = some a) (hl : a ∉ l) (c : List (Item α)) :
    l.foldl (fun c b => showing new b p c) c = l.reverse ++ c := by
  induction l generalizing c with
  | nil => rfl
  | cons b l ih =>
    obtain ⟨hb, hrest⟩ := not_or.mp (fun h => hl (mem_cons.mpr h))
    have hstep : showing new b p c = b :: c := by
      unfold showing
      rw [hnew, if_neg (fun h => hb (Option.some.inj h))]
    rw [foldl_cons, hstep, ih hrest, reverse_cons, append_assoc, singleton_append]

/-- **Drawing only what changed gives the whole picture**, for a frame whose items cover the screen,
exactly if no two items that reach a pixel outside the box around what changed change places. -/
theorem redraws_iff (screen : Rect) (old new : List (Item α))
    (hcover : ∀ p, screen.Has p → reaching new p ≠ []) :
    Redraws screen old new ↔ InOrder screen old new := by
  have hframe : ∀ p, (redrawn false screen old new).Has p ↔
      Hull (ChangedBox old new) p ∧ screen.Has p := by
    intro p
    unfold redrawn
    rw [if_neg (by decide), Rect.has_and, has_diff]
  rw [inOrder_iff]
  constructor
  · intro h p hscreen hp
    have hopaque : ∀ q, screen.Has q →
        ∀ c c', colour (showing new) new q c = colour (showing new) new q c' := by
      intro q hq c c'
      obtain ⟨a, l, hal⟩ := exists_cons_of_ne_nil (hcover q hq)
      unfold colour
      have hstep : ∀ c, showing new a q c = [a] := by
        intro c
        unfold showing
        rw [hal, if_pos (by rfl)]
      rw [hal, foldl_cons, foldl_cons, hstep c, hstep c']
    have hsame := h (List (Item α)) (showing new) hopaque (fun _ => []) (fun _ => []) p hscreen
    rw [sceneDraw_apply, sceneDraw_apply, sceneDraw_apply,
      if_neg (fun hf => hp ((hframe p).mp hf).1), if_pos hscreen, if_pos hscreen] at hsame
    obtain ⟨hnodup, hsub⟩ := reaching_old hp
    obtain ⟨hnodup', hsub'⟩ := reaching_new hp
    obtain ⟨a, l, hal⟩ := exists_cons_of_ne_nil (hcover p hscreen)
    have hhead : (reaching new p).head? = some a := by
      rw [hal]
      rfl
    have hstep : ∀ c, showing new a p c = [a] := by
      intro c
      unfold showing
      rw [hhead, if_pos rfl]
    unfold colour at hsame
    -- the lowest one of the new frame is somewhere in the old one
    obtain ⟨pre, post, hold⟩ := append_of_mem (hsub' a (hal ▸ mem_cons_self))
    have hlen : (reaching old p).length = (reaching new p).length :=
      ((perm_ext_iff_of_nodup hnodup hnodup').mpr fun b => ⟨hsub b, hsub' b⟩).length_eq
    rw [hold] at hnodup hlen hsame ⊢
    rw [hal] at hnodup' hlen hsame ⊢
    have hpost : a ∉ post := (nodup_cons.mp (nodup_append.mp hnodup).2.1).1
    have hl : a ∉ l := (nodup_cons.mp hnodup').1
    rw [foldl_append, foldl_cons, foldl_cons, hstep, hstep, foldl_showing hhead hpost,
      foldl_showing hhead hl] at hsame
    obtain rfl : post = l := reverse_injective (append_cancel_right hsame)
    rw [length_append, length_cons] at hlen
    obtain rfl : pre = [] := length_eq_zero_iff.mp (by omega)
    rfl
  · intro h C draw hopaque base base' p hscreen
    rw [sceneDraw_apply, sceneDraw_apply, sceneDraw_apply, if_pos hscreen, if_pos hscreen]
    by_cases hp : Hull (ChangedBox old new) p
    · rw [if_pos ((hframe p).mpr ⟨hp, hscreen⟩)]
      exact hopaque p hscreen _ _
    · rw [if_neg (fun hf => hp ((hframe p).mp hf).1)]
      have hsame : colour draw old p (base p) = colour draw new p (base p) := by
        unfold colour
        rw [h p hscreen hp]
      rw [hsame]
      exact hopaque p hscreen _ _

end iff

/-- Items of different ids that never change places are enough, whether an id comes once or more
often. -/
theorem inOrder_of_ids (screen : Rect) {old new : List (Item α)}
    (h : ∀ i j, i ≠ j → [i, j].Sublist (old.map Item.id) → ¬ [j, i].Sublist (new.map Item.id)) :
    InOrder screen old new := by
  intro p _ hp x y hx _ hxy hyx
  by_cases hid : x.id = y.id
  · -- an id that comes once more has changed
    obtain ⟨pre, post, hold, hmem⟩ := split_of_pair hxy
    refine not_changed hp hx (.inl ⟨pre, post, hold, .inl ?_⟩)
    rw [hid]
    exact mem_map_of_mem hmem
  · exact h x.id y.id hid (hxy.map Item.id) (hyx.map Item.id)

end redraws

/-! ### Frames -/

/-- A screen of two pixels, and a frame with an item on each of them over the background. -/
def twoPixels : Rect := ⟨0, 0, 2, 1⟩

def left : Rect := ⟨0, 0, 1, 1⟩
def right : Rect := ⟨1, 0, 2, 1⟩

def ground : List (Item ℕ) := place twoPixels 0 0 twoPixels []

theorem twoPixels_cases (hp : twoPixels.Has p) : p = (0, 0) ∨ p = (1, 0) := by
  obtain ⟨x, y⟩ := p
  unfold twoPixels Rect.Has at hp
  dsimp only at hp
  rw [Prod.mk.injEq, Prod.mk.injEq]
  omega

/-- An item that is added. -/
theorem redraws_added : Redraws twoPixels (place twoPixels 1 1 left ground)
    (place twoPixels 2 2 right (place twoPixels 1 1 left ground)) := by
  refine (redraws_iff _ _ _ fun p hp => ?_).mpr (inOrder_of_ids _ fun i j _ hij hji => ?_)
  · rcases twoPixels_cases hp with rfl | rfl
    · decide
    · decide
  · have hpair : [i, j] = [0, 1] := hij.eq_of_length rfl
    obtain ⟨rfl, hj⟩ := List.cons.inj hpair
    obtain ⟨rfl, -⟩ := List.cons.inj hj
    exact absurd hji (by decide)

/-- The same ids in the same order, one of them twice and each time as the other was. -/
def before : List (Item ℕ) :=
  place twoPixels 1 3 right (place twoPixels 2 2 right (place twoPixels 1 1 left ground))

def after : List (Item ℕ) :=
  place twoPixels 1 1 left (place twoPixels 2 2 right (place twoPixels 1 3 right ground))

/-- **A pixel that is not drawn anew**: the last item of the id is taken for the first one. -/
theorem redraws_swapped :
    before.map Item.id = after.map Item.id ∧ diff before after = left ∧
    ¬ Redraws twoPixels before after := by
  refine ⟨by decide, by decide, fun h => ?_⟩
  have hopaque : ∀ p, twoPixels.Has p → ∀ c c' : ℕ,
      colour (fun a _ _ => a.look) after p c = colour (fun a _ _ => a.look) after p c' := by
    intro p hp c c'
    rcases twoPixels_cases hp with rfl | rfl
    · rfl
    · rfl
  have hpixel := h ℕ (fun a _ _ => a.look) hopaque (fun _ => 9) (fun _ => 9) (1, 0) (by decide)
  exact absurd hpixel (by decide)

end Hassmic.Ui
