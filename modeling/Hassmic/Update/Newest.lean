import Hassmic.Update.Scan

/-!
# The newest beta

The list of releases that GitHub answers with is a JSON array of objects, of which the look reads
the tag of each by scanning.  Here the list is given by what it is made of, white space and all
other members included, and what the look picks from its text is compared with the tags that are in
it.

## Main definitions

* `Listing` — a list of releases, and its text.
* `projectVersion` — the version in a tag of the project's form.
* `taken` — the versions in the tags that may go into an URL, in their order.
* `Newest` — the look picks a release of the highest version of the project's.
* `Orderly` — the first version that is taken is as wide as the project's, and none of that width is
  above the highest of these.

## Main results

* `exists_listing` — **every JSON array of objects is such a list**.
* `jsonItem_listing` — the scanner finds the elements.
* `newest_iff` — **the newest is picked in orderly lists, and in no others**.
-/

namespace Hassmic.Update

open Byte Text Json List Option

/-! ### A list of releases -/

namespace Release

variable (r : Release)

def item : Bytes := r.pre ++ (r.text ++ r.post)

/-- The member that holds the tag. -/
def tagField : Option Field := r.fields.find? fun f => unescape f.name = Byte.text "tag_name"

/-- The text that a string stands for. -/
def stringOf : Bytes → Option Bytes
  | [] => none
  | c :: l => if c = quote then some (unescape l.dropLast) else none

/-- The tag of a release. -/
def tag : Option Bytes := r.tagField.bind fun f => stringOf f.value

end Release

/-- A list of releases. -/
structure Listing where
  pre : Bytes
  gap : Bytes
  releases : List Release
  post : Bytes
  isWs : Ws pre ∧ Ws gap ∧ Ws post

namespace Listing

variable (L : Listing)

def text : Bytes :=
  L.pre ++ lbracket :: (L.gap ++ (commas (L.releases.map Release.item) ++ rbracket :: L.post))

end Listing

/-! ### Tags of the project -/

/-- `2026.10.02.091530`: digits and dots in their places. -/
def isVersion (v : Bytes) : Bool :=
  v.length = 17 && (v.zip (text "0000.00.00.000000")).all fun p => if p.2 = dot then p.1 = dot
    else isDigit p.1

/-- The version in a tag of the form `v<year.month.day.time>`, with or without `-beta`. -/
def projectVersion (t : Bytes) : Option Bytes :=
  let v := (t.drop 1).take 17
  if t.head? = some 0x76 ∧ isVersion v ∧ (t.drop 18 = [] ∨ t.drop 18 = text "-beta") then
    some v else none

example : projectVersion (text "v2026.10.02.091530-beta") = some (text "2026.10.02.091530") := by
    decide +kernel

namespace Listing

variable (L : Listing)

/-- The versions of the project's releases. -/
def projects : List Bytes := L.releases.filterMap fun r => r.tag.bind projectVersion

end Listing

/-- The versions that a look takes from some releases, in their order: none of a release without a
tag, with one that may not go into an URL, or with one of which nothing is left. -/
def taken (rs : List Release) : List Bytes := rs.filterMap fun r => r.version.filter (· ≠ [])

/-- **The newest is picked**: if there is a release of the project's, a release of the highest
version of these. -/
def Newest (L : Listing) : Prop :=
  L.projects ≠ [] → ∃ r ∈ L.releases, ∃ f, look .beta (.ok L.text) = some (.ok f) ∧
    readRelease .beta (some r.text) = .ok f ∧ f.latest ∈ L.projects ∧
    ∀ w ∈ L.projects, before f.latest w = false

/-- The first version that is taken is as wide as those of the project; the highest of these is
taken too, and none of this width is above it. -/
def Orderly (L : Listing) : Prop :=
  L.projects ≠ [] → ∃ v ∈ L.projects, (∀ w ∈ L.projects, before v w = false) ∧
    v ∈ taken L.releases ∧ (∀ w ∈ (taken L.releases).head?, w.length = v.length) ∧
      ∀ w ∈ taken L.releases, w.length = v.length → before v w = false

/-! ### Every list of objects -/

/-- The items of a list of the grammar, each with the white space around it. -/
theorem commas_of_list1 {β : Type*} {T : β → Bytes} {Item : ℕ → Bytes → Prop}
    (hitem : ∀ {a l b n}, Ws a → Item n l → Ws b → ∃ x, T x = a ++ l ++ b) {n : ℕ} {l : Bytes}
    (h : List1 Item n l) : ∃ xs, xs ≠ [] ∧ commas (xs.map T) = l := by
  induction h with
  | one ha hl hb =>
    obtain ⟨x, hx⟩ := hitem ha hl hb
    exact ⟨[x], cons_ne_nil _ _, hx⟩
  | more ha hl hb _ ih =>
    obtain ⟨x, hx⟩ := hitem ha hl hb
    obtain ⟨xs, hne, hxs⟩ := ih
    cases xs with
    | nil => exact absurd rfl hne
    | cons y xs =>
      refine ⟨x :: y :: xs, cons_ne_nil _ _, ?_⟩
      rw [map_cons, map_cons, commas, hx]
      exact congrArg (_ ++ comma :: ·) hxs

/-- An object of the grammar. -/
theorem exists_release {a b m : Bytes} {d n : ℕ} (ha : Ws a)
    (h : Value d n m ∧ m.head? = some lbrace) (hb : Ws b) :
    ∃ r : Release, r.item = a ++ m ++ b := by
  have hobject : ∀ {V : ℕ → Bytes → Prop}, (∀ n l, V n l → ∃ d n, Value d n l) → ValueOf V n m →
      ∃ r : Release, r.item = a ++ m ++ b := by
    intro V hV hm
    obtain ⟨-, hhead⟩ := h
    cases hm with
    | string => exact absurd (some.inj hhead) (by decide)
    | number hc =>
      obtain rfl := some.inj hhead
      exact absurd hc (by decide)
    | literal hw =>
      have hwords : ∀ w ∈ words, w.1.head? ≠ some lbrace := by decide
      exact absurd hhead (hwords _ hw)
    | emptyArray => exact absurd (some.inj hhead) (by decide)
    | array => exact absurd (some.inj hhead) (by decide)
    | @emptyObject g hg =>
      refine ⟨⟨a, g, [], b, ha, hg, hb⟩, ?_⟩
      unfold Release.item Release.text Release.inner
      simp [commas]
    | @object l n hl =>
      have hfield : ∀ {a l b n}, Ws a → Member V n l → Ws b →
          ∃ f : Field, f.text = a ++ l ++ b := by
        intro a l b n ha hl hb
        cases hl with
        | @mk k g g' v n hk hg hg' hv =>
          refine ⟨⟨a, k, g, g', v, b, ⟨ha, hg, hg', hb⟩, hk, hV n v hv⟩, ?_⟩
          unfold Field.text Field.behind
          simp only [append_assoc, cons_append]
      obtain ⟨fs, -, hfs⟩ := commas_of_list1 hfield hl
      refine ⟨⟨a, [], fs, b, ha, forall_mem_nil _, hb⟩, ?_⟩
      unfold Release.item Release.text Release.inner
      dsimp only
      rw [hfs]
      simp only [append_assoc, cons_append, nil_append]
  cases d with
  | zero => exact hobject (fun _ _ hno => hno.elim) h.1
  | succ d => exact hobject (fun n l hv => ⟨d, n, hv⟩) h.1

/-- **Every JSON array of objects is such a list.** -/
theorem exists_listing {a b v : Bytes} {d n : ℕ} (ha : Ws a) (hb : Ws b)
    (h : ValueOf (fun n m => Value d n m ∧ m.head? = some lbrace) n v)
    (hv : v.head? = some lbracket) :
    ∃ L : Listing, L.text = a ++ v ++ b := by
  cases h with
  | string => exact absurd (some.inj hv) (by decide)
  | number hc =>
    obtain rfl := some.inj hv
    exact absurd hc (by decide)
  | literal hw =>
    have hwords : ∀ w ∈ words, w.1.head? ≠ some lbracket := by decide
    exact absurd hv (hwords _ hw)
  | @emptyArray g hg =>
    refine ⟨⟨a, g, [], b, ha, hg, hb⟩, ?_⟩
    unfold Listing.text
    simp [commas]
  | @array l n hl =>
    obtain ⟨rs, -, hrs⟩ := commas_of_list1 (fun ha hm hb => exists_release ha hm hb) hl
    refine ⟨⟨a, [], rs, b, ha, forall_mem_nil _, hb⟩, ?_⟩
    unfold Listing.text
    dsimp only
    rw [hrs]
    simp only [append_assoc, cons_append, nil_append]
  | emptyObject => exact absurd (some.inj hv) (by decide)
  | object => exact absurd (some.inj hv) (by decide)

/-! ### Elements -/

section items

variable {i depth n : ℕ} {s k l v : Bytes}

/-- A string is passed by. -/
theorem itemLoop_raw (hk : Raw k) (l : Bytes) :
    itemLoop i true depth n s (k ++ quote :: l) = itemLoop i false depth n s l := by
  induction hk with
  | nil =>
    rw [nil_append, itemLoop.eq_def]
    exact if_pos rfl
  | @char c k hq hb _ ih =>
    rw [cons_append, itemLoop.eq_def]
    dsimp only
    rw [if_neg hq, if_neg hb, ih]
  | @pair e k _ ih =>
    rw [cons_append, cons_append, itemLoop.eq_def]
    dsimp only
    rw [if_neg (by decide), if_pos rfl, ih]

theorem itemLoop_plain {c : UInt8} (ho : opens c = false) (hc : closes c = false)
    (hq : c ≠ quote) (l : Bytes) :
    itemLoop i false depth n s (c :: l) = itemLoop i false depth n s l := by
  rw [itemLoop, if_neg hq, if_neg (by rw [ho]; decide), if_neg (by rw [hc]; decide)]

theorem itemLoop_ws (hk : Ws k) (l : Bytes) :
    itemLoop i false depth n s (k ++ l) = itemLoop i false depth n s l := by
  induction k with
  | nil => rfl
  | cons c k ih =>
    obtain ⟨-, ho, hc, hq, -⟩ := isSpace_of_isWs (hk c mem_cons_self)
    rw [cons_append, itemLoop_plain ho hc hq]
    exact ih fun x hx => hk x (mem_cons_of_mem c hx)

/-- Inside of an element no other begins or ends. -/
theorem itemLoop_balanced (hv : Balanced v) (hdepth : 2 ≤ depth) (l : Bytes) :
    itemLoop i false depth n s (v ++ l) = itemLoop i false depth n s l := by
  induction hv generalizing depth l with
  | nil => rfl
  | plain ho hc hq _ ih => rw [cons_append, itemLoop_plain ho hc hq, ih hdepth]
  | string hk _ ih =>
    rw [cons_append, append_assoc, cons_append, itemLoop, if_pos rfl, itemLoop_raw hk, ih hdepth]
  | nest ho hc _ _ ihl ihm =>
    have hclose := closes_opens hc
    rw [cons_append, append_assoc, cons_append, itemLoop, if_neg (opens_quote ho), if_pos ho,
      if_neg (by omega), ihl (by omega), itemLoop, if_neg hclose.2,
      if_neg (by rw [hclose.1]; decide), if_pos hc, if_neg (by omega), if_neg (by omega),
      Nat.add_sub_cancel, ihm hdepth]

theorem Field.balanced (f : Field) : Balanced f.text := by
  obtain ⟨hpre, ha, hb, hpost⟩ := f.isWs
  obtain ⟨d, n, hvalue⟩ := f.isValue
  have hbehind : Balanced f.behind :=
    (Balanced.of_ws hb).append (hvalue.shape.balanced.append (.of_ws hpost))
  exact (Balanced.of_ws hpre).append
    (.string f.isName.raw ((Balanced.of_ws ha).append (.plain rfl rfl (by decide) hbehind)))

theorem balanced_commas {l : List Bytes} (h : ∀ x ∈ l, Balanced x) : Balanced (commas l) := by
  induction l with
  | nil => exact .nil
  | cons x l ih =>
    have hx := h x mem_cons_self
    cases l with
    | nil => exact hx
    | cons y l =>
      exact hx.append (.plain rfl rfl (by decide) (ih fun z hz => h z (mem_cons_of_mem x hz)))

theorem Release.balanced (r : Release) : Balanced r.inner := by
  refine (Balanced.of_ws r.isWs.2.1).append (balanced_commas ?_)
  intro x hx
  obtain ⟨f, -, rfl⟩ := mem_map.mp hx
  exact f.balanced

/-- **One element**: it is the one that is looked for, or is passed by. -/
theorem itemLoop_item (r : Release) (l : Bytes) : itemLoop i false 1 n s (r.item ++ l) =
    if n = i then some r.text else itemLoop i false 1 (n + 1) s l := by
  have htext : r.item ++ l = r.pre ++ lbrace :: (r.inner ++ rbrace :: (r.post ++ l)) := by
    unfold Release.item Release.text
    simp only [append_assoc, cons_append, nil_append]
  generalize hfrom : lbrace :: (r.inner ++ rbrace :: (r.post ++ l)) = m at htext
  have hbegin : itemLoop i false 1 n s m =
      itemLoop i false 2 (n + 1) (if n = i then m else s) (r.inner ++ rbrace :: (r.post ++ l)) := by
    rw [← hfrom, itemLoop, if_neg (by decide), if_pos (by decide), if_pos ⟨rfl, rfl⟩]
  have hend : ∀ s, itemLoop i false 2 (n + 1) s (rbrace :: (r.post ++ l)) =
      if n = i then some (s.take (s.length - (r.post ++ l).length))
      else itemLoop i false 1 (n + 1) s (r.post ++ l) := by
    intro s
    rw [itemLoop, if_neg (by decide), if_neg (by decide), if_pos (by decide)]
    by_cases hn : n = i
    · rw [if_pos ⟨rfl, congrArg (· + 1) hn, rfl⟩, if_pos hn]
    · rw [if_neg (fun h => hn (Nat.succ.inj h.2.1)), if_neg (by omega), if_neg hn]
  rw [htext, itemLoop_ws r.isWs.1, hbegin, itemLoop_balanced r.balanced le_rfl, hend]
  by_cases hn : n = i
  · rw [if_pos hn, if_pos hn, if_pos hn]
    have hsplit : m = r.text ++ (r.post ++ l) := by
      rw [← hfrom]
      unfold Release.text
      simp only [append_assoc, cons_append, nil_append]
    rw [hsplit, length_append, Nat.add_sub_cancel, take_left]
  · rw [if_neg hn, if_neg hn, if_neg hn, itemLoop_ws r.isWs.2.2]

/-- **The elements of the list, from the one on that is at hand.** -/
theorem itemLoop_items (rs : List Release) (hn : n ≤ i) (l : Bytes) :
    itemLoop i false 1 n s (commas (rs.map Release.item) ++ rbracket :: l) =
      rs[i - n]?.map Release.text := by
  have hend : ∀ n s, itemLoop i false 1 n s (rbracket :: l) = none := by
    intro n s
    rw [itemLoop, if_neg (by decide), if_neg (by decide), if_pos (by decide),
      if_neg (by omega), if_pos le_rfl]
  induction rs generalizing n s with
  | nil => exact hend n s
  | cons r rs ih =>
    have hlater : ∀ m,
        (n ≠ i → itemLoop i false 1 (n + 1) s m = rs[i - (n + 1)]?.map Release.text) →
        itemLoop i false 1 n s (r.item ++ m) = (r :: rs)[i - n]?.map Release.text := by
      intro m hm
      rw [itemLoop_item]
      by_cases heq : n = i
      · rw [if_pos heq, heq, Nat.sub_self]
        rfl
      · have hsub : i - n = i - (n + 1) + 1 := by omega
        rw [if_neg heq, hm heq, hsub, getElem?_cons_succ]
    cases rs with
    | nil =>
      refine hlater (rbracket :: l) ?_
      intro _
      rw [hend]
      rfl
    | cons r' rs =>
      have htext : commas ((r :: r' :: rs).map Release.item) ++ rbracket :: l =
          r.item ++ comma :: (commas ((r' :: rs).map Release.item) ++ rbracket :: l) := by
        rw [map_cons, map_cons, commas, append_assoc]
        rfl
      rw [htext]
      refine hlater _ ?_
      intro hne
      rw [itemLoop_plain rfl rfl (by decide)]
      exact ih (by omega)

/-- **`json_item` finds each element** of the list. -/
theorem jsonItem_listing (L : Listing) (i : ℕ) :
    jsonItem L.text i = L.releases[i]?.map Release.text := by
  have hstart : jsonItem L.text i =
      itemLoop i false 1 0 []
      (L.gap ++ (commas (L.releases.map Release.item) ++ rbracket :: L.post)) := by
    have hskip : L.text.dropWhile isSpace =
        lbracket :: (L.gap ++ (commas (L.releases.map Release.item) ++ rbracket :: L.post)) := by
      unfold Listing.text
      rw [dropWhile_ws L.isWs.1]
      rfl
    unfold jsonItem
    rw [hskip]
    rfl
  rw [hstart, itemLoop_ws L.isWs.2.1]
  exact itemLoop_items L.releases (Nat.zero_le i) L.post

end items

/-! ### The highest version is picked -/

/-- One turn over an element. -/
def pickStep (best : Bytes × Option Bytes) (r : Release) : Bytes × Option Bytes :=
  match r.version with
  | none => best
  | some v => if better v best.1 then (v, some r.text) else best

/-- **The best of some releases**: none while no version was taken; then a release of the highest of
those that are as wide as the first. -/
inductive Best (rs : List Release) : Bytes × Option Bytes → Prop
  | none (h : taken rs = []) : Best rs ([], none)
  | some {v : Bytes} {r : Release} (hr : r ∈ rs) (hv : r.version = some v) (hne : v ≠ [])
      (hwide : ∀ w ∈ (taken rs).head?, w.length = v.length)
      (hmax : ∀ w ∈ taken rs, w.length = v.length → before v w = false) : Best rs (v, some r.text)

theorem before_irrefl (v : Bytes) : before v v = false := by
  unfold before
  exact decide_eq_false (lt_irrefl _)

theorem before_false_of_before {u v w : Bytes} (huv : before u v = true)
    (huw : before u w = false) :
    before v w = false := by
  unfold before at huv huw ⊢
  have hlt := of_decide_eq_true huv
  have hle := not_lt.mp (of_decide_eq_false huw)
  exact decide_eq_false (not_lt.mpr (hle.trans hlt.le))

theorem eq_of_not_before {v w : Bytes} (hvw : before v w = false) (hwv : before w v = false) :
    v = w := by
  unfold before at hvw hwv
  have hle := not_lt.mp (of_decide_eq_false hvw)
  have hge := not_lt.mp (of_decide_eq_false hwv)
  exact map_toNat_injective (le_antisymm hge hle)

/-- **One turn keeps the best.** -/
theorem Best.step {rs : List Release} {best : Bytes × Option Bytes}
    (h : Best rs best) (r : Release) :
    Best (rs ++ [r]) (pickStep best r) := by
  have htaken : taken (rs ++ [r]) = taken rs ++ (r.version.filter (· ≠ [])).toList := by
    unfold taken
    rw [filterMap_append]
    refine congrArg _ ?_
    rw [filterMap_cons]
    cases r.version.filter (· ≠ []) with
    | none => rfl
    | some v => rfl
  have hold : ∀ r' ∈ rs, r' ∈ rs ++ [r] := fun r' hr' => mem_append_left _ hr'
  have hnew : r ∈ rs ++ [r] := mem_append_right _ (mem_singleton.mpr rfl)
  -- nothing is taken from it
  have hsame : taken (rs ++ [r]) = taken rs → Best (rs ++ [r]) best := by
    intro heq
    cases h with
    | none h => exact .none (heq.trans h)
    | some hr hv hne hwide hmax =>
      exact .some (hold _ hr) hv hne (by rw [heq]; exact hwide) (by rw [heq]; exact hmax)
  unfold pickStep
  cases hv : r.version with
  | none =>
    rw [hv] at htaken
    exact hsame (htaken.trans (append_nil _))
  | some v =>
    dsimp only
    rw [hv, filter_some] at htaken
    by_cases hnil : v = []
    · subst hnil
      have hno : better [] best.1 = false := by
        cases h with
        | none => rfl
        | some hr hv hne =>
          rename_i u r'
          unfold better
          rw [if_neg (fun h => hne (length_eq_zero_iff.mp h.symm))]
          exact decide_eq_false hne
      rw [hno]
      exact hsame (htaken.trans (append_nil _))
    · rw [if_pos (decide_eq_true hnil)] at htaken
      have hadd : taken (rs ++ [r]) = taken rs ++ [v] := htaken
      cases h with
      | none h =>
        have hyes : better v [] = true := by
          have hlen : v.length ≠ ([] : Bytes).length := fun h => hnil (length_eq_zero_iff.mp h)
          unfold better
          rw [if_neg hlen]
          rfl
        rw [if_pos hyes]
        rw [h, nil_append] at hadd
        refine .some hnew hv hnil ?_ ?_
        · rw [hadd]
          intro w hw
          rw [some.inj hw]
        · rw [hadd]
          intro w hw _
          rw [mem_singleton.mp hw]
          exact before_irrefl v
      | @some u r' hr' hu hne hwide hmax =>
        have hmem : u ∈ taken rs := by
          refine mem_filterMap.mpr ⟨r', hr', ?_⟩
          rw [hu, filter_some, if_pos (decide_eq_true hne)]
        have hhead : (taken (rs ++ [r])).head? = (taken rs).head? := by
          rw [hadd, head?_append]
          cases hrs : taken rs with
          | nil =>
            rw [hrs] at hmem
            exact absurd hmem not_mem_nil
          | cons => rfl
        by_cases hbetter : better v u = true
        · rw [if_pos hbetter]
          unfold better at hbetter
          split at hbetter
          case isFalse => exact absurd (of_decide_eq_true hbetter) hne
          case isTrue hlen =>
            refine .some hnew hv hnil ?_ ?_
            · rw [hhead]
              exact fun w hw => (hwide w hw).trans hlen.symm
            · rw [hadd]
              intro w hw hwlen
              rcases mem_append.mp hw with hw | hw
              · exact before_false_of_before hbetter (hmax w hw (hwlen.trans hlen))
              · rw [mem_singleton.mp hw]
                exact before_irrefl v
        · rw [if_neg hbetter]
          refine .some (hold r' hr') hu hne ?_ ?_
          · rw [hhead]
            exact hwide
          · rw [hadd]
            intro w hw hwlen
            rcases mem_append.mp hw with hw | hw
            · exact hmax w hw hwlen
            · rw [mem_singleton.mp hw] at hwlen ⊢
              unfold better at hbetter
              rw [if_pos hwlen] at hbetter
              exact Bool.eq_false_of_not_eq_true hbetter

/-- The best of all. -/
theorem best_foldl (rs : List Release) : Best rs (rs.foldl pickStep ([], none)) := by
  have hrun : ∀ (l done : List Release) (best : Bytes × Option Bytes), Best done best →
      Best (done ++ l) (l.foldl pickStep best) := by
    intro l
    induction l with
    | nil =>
      intro done best h
      rw [append_nil]
      exact h
    | cons r l ih =>
      intro done best h
      have hnext := ih (done ++ [r]) (pickStep best r) (h.step r)
      rw [append_assoc] at hnext
      exact hnext
  exact hrun rs [] ([], none) (.none rfl)

theorem length_le_commas : ∀ rs : List Release, rs.length ≤ (commas (rs.map Release.item)).length
  | [] => Nat.zero_le _
  | [r] => by
      unfold Release.item Release.text
      simp only [map_cons, map_nil, commas, length_append, length_cons]
      omega
  | r :: r' :: rs => by
      have ih := length_le_commas (r' :: rs)
      rw [map_cons, map_cons, commas, length_append, length_cons, length_cons]
      exact (Nat.succ_le_succ ih).trans (Nat.le_add_left _ _)

/-- The loop over the list is a fold over its releases. -/
theorem lookLoop_listing (L : Listing) (f i : ℕ) (best : Bytes × Option Bytes)
    (hf : L.releases.length < f + i) (hi : i < f + i) :
    lookLoop L.text f i best = some ((L.releases.drop i).foldl pickStep best).2 := by
  induction f generalizing i best with
  | zero => exact absurd hi (by omega)
  | succ f ih =>
    unfold lookLoop
    rw [jsonItem_listing]
    cases hr : L.releases[i]? with
    | none =>
      rw [drop_eq_nil_of_le (List.getElem?_eq_none_iff.mp hr)]
      rfl
    | some r =>
      obtain ⟨hlt, rfl⟩ := List.getElem?_eq_some_iff.mp hr
      rw [drop_eq_getElem_cons hlt, foldl_cons, map_some, ← ih (i + 1) _ (by omega) (by omega)]
      dsimp only
      rw [elementVersion_release]
      unfold pickStep
      cases L.releases[i].version with
      | none => rfl
      | some v => rfl

/-- What a look on the beta channel makes of the list. -/
theorem look_listing (L : Listing) : look .beta (.ok L.text) =
    some (readRelease .beta (L.releases.foldl pickStep ([], none)).2) := by
  have hlen : L.releases.length ≤ L.text.length := by
    have hcommas := length_le_commas L.releases
    unfold Listing.text
    rw [length_append, length_cons, length_append, length_append]
    omega
  have hloop := lookLoop_listing L (L.text.length + 1) 0 ([], none) (by omega) (by omega)
  unfold look
  dsimp only
  rw [if_pos rfl, hloop]
  rfl

/-- The release that was picked is read. -/
theorem readRelease_of_version {r : Release} {v : Bytes} (h : r.version = some v) :
    ∃ f, readRelease .beta (some r.text) = .ok f ∧ f.latest = v := by
  rw [← elementVersion_release] at h
  unfold elementVersion at h
  cases ht : jsonGet r.text (text "tag_name") 64 with
  | none =>
    rw [ht] at h
    exact nomatch h
  | some t =>
    rw [ht] at h
    dsimp only at h
    split at h
    case isFalse => exact nomatch h
    case isTrue hok =>
      unfold readRelease
      rw [bind_some, ht]
      dsimp only [map_some]
      rw [if_pos hok]
      exact ⟨_, rfl, some.inj h⟩

/-- **The newest beta is found in orderly lists, and in no others.** -/
theorem newest_iff (L : Listing) : Newest L ↔ Orderly L := by
  have hlook := look_listing L
  have hbest := best_foldl L.releases
  generalize L.releases.foldl pickStep ([], none) = best at hlook hbest
  constructor
  · intro h hne
    obtain ⟨r, hr, f, hfound, hread, hmem, hmax⟩ := h hne
    rw [hlook] at hfound
    cases hbest with
    | none =>
      exact nomatch some.inj hfound
    | @some v r' hr' hv hnil hwide hhigh =>
      obtain ⟨f', hread', hlatest⟩ := readRelease_of_version hv
      have hsame : f' = f := Except.ok.inj (hread'.symm.trans (some.inj hfound))
      rw [hsame] at hlatest
      rw [hlatest] at hmem hmax
      refine ⟨v, hmem, hmax, ?_, hwide, hhigh⟩
      refine mem_filterMap.mpr ⟨r', hr', ?_⟩
      rw [hv, filter_some, if_pos (decide_eq_true hnil)]
  · intro h hne
    obtain ⟨v, hmem, hmax, hin, hwide, hhigh⟩ := h hne
    cases hbest with
    | none htaken =>
      rw [htaken] at hin
      exact absurd hin not_mem_nil
    | @some u r hr hu hnil hwide' hhigh' =>
      -- both are the highest of the width of the first
      have hut : u ∈ taken L.releases := by
        refine mem_filterMap.mpr ⟨r, hr, ?_⟩
        rw [hu, filter_some, if_pos (decide_eq_true hnil)]
      have hlen : u.length = v.length := by
        cases hhead : (taken L.releases).head? with
        | none =>
          rw [head?_eq_none_iff.mp hhead] at hin
          exact absurd hin not_mem_nil
        | some w => exact (hwide' w hhead).symm.trans (hwide w hhead)
      have heq : u = v := eq_of_not_before (hhigh' v hin hlen.symm) (hhigh u hut hlen)
      obtain ⟨f, hread, hlatest⟩ := readRelease_of_version hu
      refine ⟨r, hr, f, ?_, hread, ?_⟩
      · rw [hlook]
        exact congrArg some hread
      · rw [hlatest, heq]
        exact ⟨hmem, hmax⟩

/-- Characters that stand for themselves. -/
theorem chars_of_plain {k : Bytes} (h : ∀ c ∈ k, ¬ c < 0x20 ∧ c ≠ quote ∧ c ≠ backslash) :
    Chars isEscape k := by
  induction k with
  | nil => exact .nil
  | cons c k ih =>
    obtain ⟨hlow, hq, hb⟩ := h c mem_cons_self
    exact .unescaped hlow hq hb (ih fun x hx => h x (mem_cons_of_mem c hx))

/-- A release with nothing but a tag. -/
def Release.ofTag (t : Bytes) (h : ∀ c ∈ t, ¬ c < 0x20 ∧ c ≠ quote ∧ c ≠ backslash) : Release where
  pre := []
  gap := []
  fields := [{
    pre := []
    name := Byte.text "tag_name"
    a := []
    b := []
    value := quote :: (t ++ [quote])
    post := []
    isWs := ⟨nofun, nofun, nofun, nofun⟩
    isName := chars_of_plain (by decide +kernel)
    isValue := ⟨0, 1, .string (chars_of_plain h)⟩ }]
  post := []
  isWs := ⟨nofun, nofun, nofun⟩

/-- **Another tag in front** is of another width, and no release of the project's is looked at
behind it. -/
theorem newest_behind_nightly : ∃ L : Listing,
    L.text =
      text "[\x7b\"tag_name\":\"nightly\"\x7d,\x7b\"tag_name\":\"v2026.10.02.091530-beta\"\x7d]" ∧
      L.projects = [text "2026.10.02.091530"] ∧ ¬ Newest L := by
  refine ⟨{
    pre := []
    gap := []
    releases := [.ofTag (text "nightly") (by decide +kernel),
      .ofTag (text "v2026.10.02.091530-beta") (by decide +kernel)]
    post := []
    isWs := ⟨nofun, nofun, nofun⟩ }, by decide +kernel, by decide +kernel, ?_⟩
  intro h
  obtain ⟨r, -, f, hfound, -, hmem, -⟩ := h (by decide +kernel)
  have hnightly : f = ⟨text "nightly", text "nightly", [], []⟩ := by
    refine (Except.ok.inj (some.inj (hfound.symm.trans (?_ : _ = some (Except.ok _)))))
    decide +kernel
  rw [hnightly] at hmem
  exact absurd hmem (by decide +kernel)

end Hassmic.Update
