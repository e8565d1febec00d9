import Hassmic.Mass.Lists

/-!
# Every list is ended once

A request that has its record was told of the items that came so far, and of no end; one that has
none was told of its end.  Both are said of the lines written and the lines still to be written
together, so that writing a line changes nothing.

## Main results

* `Held.step` — what holds of the table and the lines holds after every step.
* `lists_ended` — **every request is told of as it should be**, in every run whose steps are spared.
* `lists_ended_twice` — runs that end a list twice, or begin it twice.
-/

namespace Hassmic.Mass

open List Function Option

variable {α : Type*}

/-! ### Requests with a record, and without -/

/-- What is told of a request that has its record. -/
def opened (came : List α) : List (Said α) := if came = [] then [] else .head :: came.map .item

/-- What is told of a request that has none any more. -/
def Closed (came : List α) (t : List (Said α)) : Prop :=
  t = .head :: (came.map .item ++ [.fin none]) ∨ ∃ e, t = opened came ++ [.fin (some e)]

variable {came : List α}

theorem opened_append {l : List α} (h : came = [] → l ≠ []) :
    opened (came ++ l) = opened came ++ ((if came = [] then [.head] else []) ++ l.map .item) := by
  unfold opened
  by_cases hc : came = []
  · subst hc
    simp [h rfl]
  · simp [hc]

variable {t : List (Said α)}

/-- A part of a list of items is the list of a part of them. -/
theorem prefix_map (h : t <+: came.map .item) :
    ∃ l, l <+: came ∧ t = l.map .item := by
  obtain ⟨u, hu⟩ := h
  refine ⟨came.take t.length, take_prefix _ _, ?_⟩
  rw [map_take, ← hu, take_left]

/-- The first lines of what is told of a request with a record. -/
theorem shape_of_opened (h : t <+: opened came) : Shape came t := by
  unfold opened at h
  split at h
  · rw [prefix_nil.mp h]
    exact .silent
  · cases t with
    | nil => exact .silent
    | cons x t =>
      obtain ⟨rfl, ht⟩ := cons_prefix_cons.mp h
      obtain ⟨l, hl, rfl⟩ := prefix_map ht
      exact .started hl

/-- The first lines of what is told of a request without one. -/
theorem shape_of_closed {u : List (Said α)} (h : Closed came u) (ht : t <+: u) :
    Shape came t := by
  rcases h with rfl | ⟨e, rfl⟩
  · cases t with
    | nil => exact .silent
    | cons x t =>
      obtain ⟨rfl, htail⟩ := cons_prefix_cons.mp ht
      rcases prefix_concat_iff.mp htail with rfl | hitems
      · exact .whole
      · obtain ⟨l, hl, rfl⟩ := prefix_map hitems
        exact .started hl
  · rcases prefix_concat_iff.mp ht with rfl | hopened
    · unfold opened
      split
      · exact .refused e
      · exact .broken (prefix_refl came) e
    · exact shape_of_opened hopened

theorem Closed.fin_mem (h : Closed came t) : ∃ e, .fin e ∈ t := by
  rcases h with rfl | ⟨e, rfl⟩
  · exact ⟨none, by simp⟩
  · exact ⟨some e, by simp⟩

namespace Lists

variable {s : Lists α}

/-- The lines of a request, those still to be written included. -/
def full (s : Lists α) (r : ℕ) : List (Said α) := told r s.out ++ told r s.tell

/-- A request has its record. -/
def Has (s : Lists α) (r : ℕ) : Prop := ∃ k, ∃ p ∈ s.pend k, p.list = true ∧ p.tag = r

/-- What the thread of the screen's requests knows of the one it is at. -/
def AtUi (s : Lists α) : Prop :=
  match s.ui with
  | .idle => True
  | .asks _ tag _ => tag < s.asked ∧ s.full tag = [] ∧ s.came tag = [] ∧ ¬ s.Has tag
  | .sends _ tag id | .failed _ tag id =>
      tag < s.asked ∧ id ≤ s.next ∧ ∀ k, ∀ p ∈ s.pend k,
        (p.id = id → p.list = true ∧ p.tag = tag) ∧ (p.list = true → p.tag = tag → p.id = id)

/-- A request that the thread of the screen's requests has not decided on yet. -/
def Fresh (s : Lists α) (r : ℕ) : Prop := ∃ q up, s.ui = .asks q r up

/-- What holds of the records: no two of one message, nor of one request. -/
structure Table (s : Lists α) : Prop where
  le : ∀ k, ∀ p ∈ s.pend k, p.id ≤ s.next
  ids : ∀ j k, ∀ p ∈ s.pend j, ∀ q ∈ s.pend k, p.id = q.id → j = k
  tags : ∀ j k, ∀ p ∈ s.pend j, ∀ q ∈ s.pend k, p.list = true → q.list = true →
    p.tag = q.tag → j = k
  lt : ∀ k, ∀ p ∈ s.pend k, p.list = true → p.tag < s.asked

/-- What holds of the table and the lines. -/
structure Held (s : Lists α) : Prop where
  table : s.Table
  atUi : s.AtUi
  quiet : s.ses ≠ .up → s.tell = []
  opens : ∀ k, ∀ p ∈ s.pend k, p.list = true →
    s.full p.tag = opened (s.came p.tag) ∧ p.sent = (s.came p.tag).length ∧
      (p.what = .search → p.sent = 0)
  closes : ∀ r, s.base ≤ r → r < s.asked → ¬ s.Has r → ¬ s.Fresh r → Closed (s.came r) (s.full r)
  fresh : ∀ r, s.asked ≤ r → s.full r = [] ∧ s.came r = []

/-- **From the table to the screen.** -/
theorem Held.sound (h : s.Held) : s.Sound := by
  intro r hbase hlt
  have hprefix : told r s.out <+: s.full r := prefix_append _ _
  by_cases hhas : s.Has r
  · obtain ⟨k, p, hp, hlist, rfl⟩ := hhas
    refine ⟨shape_of_opened ((h.opens k p hp hlist).1 ▸ hprefix), fun hno => ?_⟩
    exact absurd (.inl ⟨k, p, hp, hlist, rfl⟩) hno
  · by_cases hfresh : s.Fresh r
    · obtain ⟨q, up, hui⟩ := hfresh
      have hat := h.atUi
      rw [AtUi, hui] at hat
      refine ⟨?_, fun hno => absurd (.inr (.inl (by rw [hui]; rfl))) hno⟩
      rw [hat.2.1] at hprefix
      rw [prefix_nil.mp hprefix]
      exact .silent
    · have hclosed := h.closes r hbase hlt hhas hfresh
      refine ⟨shape_of_closed hclosed hprefix, fun hno => ?_⟩
      have hwritten : s.full r = told r s.out := by
        have htell : told r s.tell = [] := by
          by_contra hne
          exact hno (.inr (.inr hne))
        rw [full, htell, append_nil]
      rw [← hwritten]
      exact hclosed.fin_mem

/-! ### The table -/

/-- The records of `t` stood in the table of `s`, up to the items told. -/
def Sub (s t : Lists α) : Prop :=
  ∀ k, ∀ p ∈ t.pend k, ∃ p' ∈ s.pend k, p'.id = p.id ∧ p'.list = p.list ∧ p'.tag = p.tag

variable {t : Lists α} {r tag : ℕ} {k : Fin 64} {p : Rec} {q : Query}

theorem sub_of_eq (h : t.pend = s.pend) : Sub s t := by
  intro k p hp
  rw [h] at hp
  exact ⟨p, hp, rfl, rfl, rfl⟩

theorem sub_free (s : Lists α) (k : Fin 64) (h : t.pend = update s.pend k none) :
    Sub s t := by
  intro j p hp
  rw [h] at hp
  by_cases hj : j = k
  · subst hj
    simp at hp
  · rw [update_of_ne hj] at hp
    exact ⟨p, hp, rfl, rfl, rfl⟩

theorem Has.of_sub (h : t.Has r) (hsub : Sub s t) : s.Has r := by
  obtain ⟨k, p, hp, hlist, htag⟩ := h
  obtain ⟨p', hp', -, hlist', htag'⟩ := hsub k p hp
  exact ⟨k, p', hp', hlist'.trans hlist, htag'.trans htag⟩

theorem Table.of_sub (h : s.Table) (hsub : Sub s t) (hnext : s.next ≤ t.next)
    (hasked : s.asked ≤ t.asked) : t.Table := by
  refine ⟨?_, ?_, ?_, ?_⟩
  · intro k p hp
    obtain ⟨p', hp', hid, -, -⟩ := hsub k p hp
    exact hid ▸ (h.le k p' hp').trans hnext
  · intro j k p hp q hq heq
    obtain ⟨p', hp', hid, -, -⟩ := hsub j p hp
    obtain ⟨q', hq', hid', -, -⟩ := hsub k q hq
    exact h.ids j k p' hp' q' hq' (hid.trans (heq.trans hid'.symm))
  · intro j k p hp q hq hpl hql heq
    obtain ⟨p', hp', -, hl, ht⟩ := hsub j p hp
    obtain ⟨q', hq', -, hl', ht'⟩ := hsub k q hq
    exact h.tags j k p' hp' q' hq' (hl.trans hpl) (hl'.trans hql) (ht.trans (heq.trans ht'.symm))
  · intro k p hp hl
    obtain ⟨p', hp', -, hl', ht⟩ := hsub k p hp
    exact ht ▸ (h.lt k p' hp' (hl'.trans hl)).trans_le hasked

/-- A request has one record. -/
theorem Table.not_has_free (h : s.Table) (hp : p ∈ s.pend k)
    (hlist : p.list = true) (ht : t.pend = update s.pend k none) :
    ¬ t.Has p.tag := by
  rintro ⟨j, q, hq, hql, hqt⟩
  rw [ht] at hq
  by_cases hj : j = k
  · subst hj
    simp at hq
  · rw [update_of_ne hj] at hq
    exact hj (h.tags j k q hq p hp hql hlist hqt)

/-- The other requests keep theirs. -/
theorem Has.free (h : s.Has r)
    (ht : t.pend = update s.pend k none) (hk : ∀ p ∈ s.pend k, p.list = true → p.tag ≠ r) :
    t.Has r := by
  obtain ⟨j, q, hq, hql, hqt⟩ := h
  have hj : j ≠ k := by
    rintro rfl
    exact hk q hq hql hqt
  refine ⟨j, q, ?_, hql, hqt⟩
  rw [ht, update_of_ne hj]
  exact hq

theorem recordOf_some {id : ℕ} (h : s.recordOf id = some (k, p)) :
    p ∈ s.pend k ∧ p.id = id := by
  unfold recordOf at h
  obtain ⟨j, hj, hmap⟩ := bind_eq_some_iff.mp h
  obtain ⟨q, hq, heq⟩ := map_eq_some_iff.mp hmap
  obtain ⟨rfl, rfl⟩ := Prod.mk.inj heq
  refine ⟨hq, ?_⟩
  have hfound := find?_some hj
  rw [hq] at hfound
  simpa using hfound

/-- A message without a record has none in the table. -/
theorem recordOf_none {id : ℕ} (h : s.recordOf id = none) (k : Fin 64) :
    ∀ p ∈ s.pend k, p.id ≠ id := by
  rintro p hp rfl
  have hfind : (s.pendOf p.id).isSome = true := by
    rw [pendOf, find?_isSome]
    refine ⟨k, mem_finRange k, ?_⟩
    rw [mem_def.mp hp]
    simp
  obtain ⟨j, hj⟩ := isSome_iff_exists.mp hfind
  have hhit := find?_some hj
  rw [recordOf, hj, bind_some, map_eq_none_iff] at h
  rw [h] at hhit
  simp at hhit

/-! ### Steps that concern one request -/

theorem AtUi.of_sub (h : s.AtUi) (hsub : Sub s t) (hui : t.ui = s.ui)
    (hnext : s.next ≤ t.next) (hasked : s.asked ≤ t.asked)
    (hfull : ∀ r, s.Fresh r → t.full r = s.full r ∧ t.came r = s.came r) : t.AtUi := by
  unfold AtUi at h ⊢
  rw [hui]
  split
  case h_1 => trivial
  case h_2 q tag up hs =>
    rw [hs] at h
    obtain ⟨hlt, hf, hc, hno⟩ := h
    obtain ⟨hf', hc'⟩ := hfull tag ⟨q, up, hs⟩
    exact ⟨hlt.trans_le hasked, hf'.trans hf, hc'.trans hc, fun hhas => hno (hhas.of_sub hsub)⟩
  case h_3 q tag id hs | h_4 q tag id hs =>
    rw [hs] at h
    refine ⟨h.1.trans_le hasked, h.2.1.trans hnext, fun k p hp => ?_⟩
    obtain ⟨p', hp', hid, hlist, htag⟩ := hsub k p hp
    have hrec := h.2.2 k p' hp'
    rw [hid, hlist, htag] at hrec
    exact hrec

/-- What has to be shown of a step that concerns the requests of `R` alone. -/
theorem Held.of_only (h : s.Held) (R : ℕ → Prop) (hlt : ∀ r, R r → r < s.asked)
    (hsub : Sub s t) (hnext : s.next ≤ t.next) (hasked : t.asked = s.asked)
    (hbase : t.base = s.base) (hat : t.AtUi) (hquiet : t.ses ≠ .up → t.tell = [])
    (hfresh : ∀ r, ¬ R r → s.Fresh r → t.Fresh r)
    (hother : ∀ r, ¬ R r → t.full r = s.full r ∧ t.came r = s.came r ∧ (s.Has r → t.Has r))
    (hrec : ∀ k, ∀ p ∈ t.pend k, p.list = true → ¬ R p.tag → p ∈ s.pend k)
    (hopens : ∀ k, ∀ p ∈ t.pend k, p.list = true → R p.tag →
      t.full p.tag = opened (t.came p.tag) ∧ p.sent = (t.came p.tag).length ∧
        (p.what = .search → p.sent = 0))
    (hcloses : ∀ r, R r → s.base ≤ r → ¬ t.Has r → ¬ t.Fresh r → Closed (t.came r) (t.full r)) :
    t.Held where
  table := h.table.of_sub hsub hnext hasked.ge
  atUi := hat
  quiet := hquiet
  opens := by
    intro k p hp hlist
    by_cases hr : R p.tag
    · exact hopens k p hp hlist hr
    · obtain ⟨hf, hc, -⟩ := hother p.tag hr
      rw [hf, hc]
      exact h.opens k p (hrec k p hp hlist hr) hlist
  closes := by
    intro r hb hl hhas hfr
    by_cases hr : R r
    · exact hcloses r hr (hbase ▸ hb) hhas hfr
    · obtain ⟨hf, hc, hkeep⟩ := hother r hr
      rw [hf, hc]
      exact h.closes r (hbase ▸ hb) (hasked ▸ hl) (fun hs => hhas (hkeep hs))
        fun hs => hfr (hfresh r hr hs)
  fresh := by
    intro r hle
    rw [hasked] at hle
    have hne : ¬ R r := fun hr => absurd (hlt r hr) (by omega)
    obtain ⟨hf, hc, -⟩ := hother r hne
    rw [hf, hc]
    exact h.fresh r hle

/-- A request with a record is not one the thread of the screen's requests has not decided on. -/
theorem Held.not_fresh (h : s.Held) (hhas : s.Has r) : ¬ s.Fresh r := by
  rintro ⟨q, up, hui⟩
  have hat := h.atUi
  rw [AtUi, hui] at hat
  exact hat.2.2.2 hhas

/-- The record of the request `p.tag` goes, and it is told of its end. -/
theorem Held.close (h : s.Held) (hp : p ∈ s.pend k) (hlist : p.list = true)
    (hpend : t.pend = update s.pend k none) (hnext : t.next = s.next) (hasked : t.asked = s.asked)
    (hbase : t.base = s.base) (hat : t.AtUi) (hquiet : t.ses ≠ .up → t.tell = [])
    (hfresh : ∀ r, s.Fresh r → t.Fresh r)
    (hother : ∀ r, r ≠ p.tag → t.full r = s.full r ∧ t.came r = s.came r)
    (hcloses : s.base ≤ p.tag → Closed (t.came p.tag) (t.full p.tag)) : t.Held := by
  have hno : ¬ t.Has p.tag := h.table.not_has_free hp hlist hpend
  refine h.of_only (· = p.tag) ?_ (sub_free s k hpend) hnext.ge hasked hbase hat hquiet
    (fun r _ hf => hfresh r hf) ?_ ?_ ?_ ?_
  · rintro r rfl
    exact h.table.lt k p hp hlist
  · intro r hr
    obtain ⟨hf, hc⟩ := hother r hr
    refine ⟨hf, hc, fun hhas => hhas.free hpend ?_⟩
    intro q hq _
    rw [mem_unique hq hp]
    exact fun heq => hr heq.symm
  · intro j q hq _ _
    rw [hpend] at hq
    by_cases hj : j = k
    · subst hj
      simp at hq
    · rwa [update_of_ne hj] at hq
  · intro j q hq hql hqt
    exact absurd ⟨j, q, hq, hql, hqt⟩ hno
  · rintro r rfl hb _ _
    exact hcloses hb

/-- A step that concerns no request. -/
theorem Held.of_none (h : s.Held) (hsub : Sub s t) (hnext : s.next ≤ t.next)
    (hasked : t.asked = s.asked) (hbase : t.base = s.base) (hat : t.AtUi)
    (hquiet : t.ses ≠ .up → t.tell = []) (hfresh : ∀ r, s.Fresh r → t.Fresh r)
    (hall : ∀ r, t.full r = s.full r ∧ t.came r = s.came r ∧ (s.Has r → t.Has r))
    (hrec : ∀ k, ∀ p ∈ t.pend k, p.list = true → p ∈ s.pend k) : t.Held :=
  h.of_only (fun _ => False) (fun _ => False.elim) hsub hnext hasked hbase hat hquiet
    (fun r _ => hfresh r) (fun r _ => hall r) (fun k p hp hl _ => hrec k p hp hl)
    (fun _ _ _ _ => False.elim) fun _ => False.elim

/-- A record that is of no list goes. -/
theorem Held.drop (h : s.Held) (hp : p ∈ s.pend k) (hlist : p.list = false) :
    (s.free k).Held := by
  have hsub : Sub s (s.free k) := sub_free s k rfl
  refine h.of_none hsub le_rfl rfl rfl (h.atUi.of_sub hsub rfl le_rfl le_rfl fun _ _ => ⟨rfl, rfl⟩)
    h.quiet (fun _ hf => hf) (fun r => ⟨rfl, rfl, fun hhas => hhas.free rfl ?_⟩) ?_
  · intro q hq hql
    rw [mem_unique hq hp, hlist] at hql
    exact nomatch hql
  · intro j q hq _
    by_cases hj : j = k
    · subst hj
      simp [free] at hq
    · simpa [free, hj] using hq

/-! ### Registering a request -/

/-- The first half of `register`: a slot is made free, and its list, if it has one, is ended. -/
def evict (s : Lists α) (k : Fin 64) : Lists α :=
  { s.free k with out := s.out ++ ((s.pend k).map (endOf "no answer")).getD [] }

/-- The second half: the record. -/
def place (s : Lists α) (k : Fin 64) (how : Rec) : Lists α :=
  { s with next := s.next + 1, pend := update s.pend k (some { how with id := s.next + 1 }) }

theorem register_eq (s : Lists α) (how : Rec) :
    s.register how = (s.evict (s.slot (s.next + 1))).place (s.slot (s.next + 1)) how := by
  simp [register, evict, place, free]

variable {l : List (UiLine α)}

/-- The lines of a request, where something is written meanwhile. -/
theorem full_write (hout : t.out = s.out ++ l)
    (htell : t.tell = s.tell) (r : ℕ) : t.full r = told r s.out ++ told r l ++ told r s.tell := by
  rw [full, hout, htell, told_append]

theorem Held.evict (h : s.Held) (k : Fin 64)
    (hquiet : ∀ p ∈ s.pend k, p.list = true → told p.tag s.tell = []) : (s.evict k).Held := by
  rcases eq_none_or_eq_some (s.pend k) with hk | ⟨p, hk⟩
  · have hsame : s.evict k = s := by
      have hpend : update s.pend k none = s.pend := by rw [← hk, update_eq_self]
      rw [Lists.evict, free, hpend, hk]
      simp
    rw [hsame]
    exact h
  · cases hlist : p.list with
    | false =>
      have hsame : s.evict k = s.free k := by
        rw [Lists.evict, hk]
        simp [endOf, hlist, free]
      rw [hsame]
      exact h.drop hk hlist
    | true =>
      have hout : (s.evict k).out = s.out ++ [.fin p.tag p.req (some "no answer")] := by
        simp [Lists.evict, hk, endOf, hlist]
      have hfull := full_write (t := s.evict k) hout rfl
      have hother : ∀ r, r ≠ p.tag → (s.evict k).full r = s.full r := by
        intro r hr
        rw [hfull, told_fin, if_neg hr.symm, append_nil]
        rfl
      have hsub : Sub s (s.evict k) := sub_free s k rfl
      have hhas : s.Has p.tag := ⟨k, p, hk, hlist, rfl⟩
      refine h.close hk hlist rfl rfl rfl rfl ?_ h.quiet (fun _ hf => hf)
        (fun r hr => ⟨hother r hr, rfl⟩) fun _ => ?_
      · refine h.atUi.of_sub hsub rfl le_rfl le_rfl fun r hr => ⟨hother r ?_, rfl⟩
        rintro rfl
        exact h.not_fresh hhas hr
      · have htold := (h.opens k p hk hlist).1
        rw [full, hquiet p hk hlist, append_nil] at htold
        refine .inr ⟨"no answer", ?_⟩
        rw [hfull, told_fin, if_pos rfl, hquiet p hk hlist, append_nil, htold]
        rfl

theorem evict_pend (s : Lists α) (k : Fin 64) : (s.evict k).pend k = none := by
  simp [Lists.evict, free]

/-- The records behind `place`: the new one, or one that stood there. -/
theorem mem_place {j : Fin 64} {how : Rec} (hp : p ∈ (s.place k how).pend j) :
    (j = k ∧ p = { how with id := s.next + 1 }) ∨ (j ≠ k ∧ p ∈ s.pend j) := by
  by_cases hj : j = k
  · subst hj
    left
    simpa [place, eq_comm] using hp
  · right
    exact ⟨hj, by simpa [place, hj] using hp⟩

theorem Table.place (h : s.Table) (k : Fin 64) (how : Rec)
    (htag : how.list = true → ¬ s.Has how.tag ∧ how.tag < s.asked) : (s.place k how).Table := by
  refine ⟨?_, ?_, ?_, ?_⟩
  · intro j p hp
    rcases mem_place hp with ⟨-, rfl⟩ | ⟨-, hp⟩
    · exact le_rfl
    · exact (h.le j p hp).trans (Nat.le_succ _)
  · intro i j p hp q hq heq
    rcases mem_place hp with ⟨hi, rfl⟩ | ⟨-, hp'⟩ <;>
      rcases mem_place hq with ⟨hj, rfl⟩ | ⟨-, hq'⟩
    · exact hi.trans hj.symm
    · have hle := h.le j q hq'
      simp only at heq
      omega
    · have hle := h.le i p hp'
      simp only at heq
      omega
    · exact h.ids i j p hp' q hq' heq
  · intro i j p hp q hq hpl hql heq
    rcases mem_place hp with ⟨hi, rfl⟩ | ⟨-, hp'⟩ <;>
      rcases mem_place hq with ⟨hj, rfl⟩ | ⟨-, hq'⟩
    · exact hi.trans hj.symm
    · exact absurd ⟨j, q, hq', hql, heq.symm⟩ (htag hpl).1
    · exact absurd ⟨i, p, hp', hpl, heq⟩ (htag hql).1
    · exact h.tags i j p hp' q hq' hpl hql heq
  · intro j p hp hl
    rcases mem_place hp with ⟨-, rfl⟩ | ⟨-, hp⟩
    · exact (htag hl).2
    · exact h.lt j p hp hl

/-- A record in a free slot takes nobody's place. -/
theorem Has.place (h : s.Has r) (hfree : s.pend k = none) (how : Rec) :
    (s.place k how).Has r := by
  obtain ⟨j, p, hp, hl, ht⟩ := h
  have hj : j ≠ k := by
    rintro rfl
    rw [hfree] at hp
    exact nomatch hp
  exact ⟨j, p, by simpa [Lists.place, hj] using hp, hl, ht⟩

/-- A message of another kind is registered. -/
theorem Held.placeOther (h : s.Held) (hfree : s.pend k = none) {how : Rec}
    (hlist : how.list = false) : (s.place k how).Held := by
  have hnot : how.list ≠ true := by simp [hlist]
  have hback : ∀ r, (s.place k how).Has r → s.Has r := by
    rintro r ⟨j, p, hp, hl, ht⟩
    rcases mem_place hp with ⟨-, rfl⟩ | ⟨-, hp⟩
    · exact absurd hl hnot
    · exact ⟨j, p, hp, hl, ht⟩
  refine ⟨h.table.place k how fun hl => absurd hl hnot, ?_, h.quiet, ?_, ?_, h.fresh⟩
  · have hat := h.atUi
    unfold AtUi at hat ⊢
    have hui : (s.place k how).ui = s.ui := rfl
    rw [hui]
    split
    case h_1 => trivial
    case h_2 q tag up hs =>
      rw [hs] at hat
      exact ⟨hat.1, hat.2.1, hat.2.2.1, fun hhas => hat.2.2.2 (hback tag hhas)⟩
    case h_3 q tag id hs | h_4 q tag id hs =>
      rw [hs] at hat
      refine ⟨hat.1, hat.2.1.trans (Nat.le_succ _), fun j p hp => ?_⟩
      rcases mem_place hp with ⟨-, rfl⟩ | ⟨-, hp⟩
      · refine ⟨fun heq => ?_, fun hl => absurd hl hnot⟩
        have hle := hat.2.1
        simp only at heq
        omega
      · exact hat.2.2 j p hp
  · intro j p hp hl
    rcases mem_place hp with ⟨-, rfl⟩ | ⟨-, hp⟩
    · exact absurd hl hnot
    · exact h.opens j p hp hl
  · intro r hb hlt hhas hfr
    exact h.closes r hb hlt (fun hs => hhas (hs.place hfree how)) hfr

/-- A list is registered, and its request is on its way. -/
theorem Held.placeList (h : s.Held) (hfree : s.pend k = none)
    {up : Bool} (hui : s.ui = .asks q tag up) (schema : ℤ) :
    Held { s.place k (recOf q tag schema) with ui := .sends q tag (s.next + 1) } := by
  have hat := h.atUi
  rw [AtUi, hui] at hat
  obtain ⟨hlt, hfull, hcame, hno⟩ := hat
  have htable := h.table.place k (recOf q tag schema) fun _ => ⟨hno, hlt⟩
  refine ⟨⟨htable.le, htable.ids, htable.tags, htable.lt⟩, ?_, h.quiet, ?_, ?_, h.fresh⟩
  · refine ⟨hlt, le_rfl, fun j p hp => ?_⟩
    rcases mem_place hp with ⟨-, rfl⟩ | ⟨-, hp⟩
    · exact ⟨fun _ => ⟨rfl, rfl⟩, fun _ _ => rfl⟩
    · refine ⟨fun heq => ?_, fun hl ht => absurd ⟨j, p, hp, hl, ht⟩ hno⟩
      have hle := h.table.le j p hp
      omega
  · intro j p hp hl
    rcases mem_place hp with ⟨-, rfl⟩ | ⟨-, hp⟩
    · change s.full tag = opened (s.came tag) ∧ 0 = (s.came tag).length ∧ _
      rw [hfull, hcame]
      exact ⟨rfl, rfl, fun _ => rfl⟩
    · exact h.opens j p hp hl
  · intro r hb hl hhas hfr
    have hne : r ≠ tag := by
      rintro rfl
      exact hhas ⟨k, { recOf q r schema with id := s.next + 1 }, by simp [place], rfl, rfl⟩
    refine h.closes r hb hl (fun hs => hhas (hs.place hfree _)) ?_
    rintro ⟨q', up', hs⟩
    rw [hui] at hs
    exact hne (Ui.asks.inj hs).2.1.symm

/-! ### The screen's requests -/

/-- A new request. -/
theorem Held.massUi (h : s.Held) (hui : s.ui = .idle) (q : Query) : (s.massUi q).Held := by
  have hsub : Sub s (s.massUi q) := sub_of_eq rfl
  refine ⟨h.table.of_sub hsub le_rfl (Nat.le_succ _), ?_, h.quiet, h.opens, ?_, ?_⟩
  · obtain ⟨hfull, hcame⟩ := h.fresh s.asked le_rfl
    refine ⟨Nat.lt_succ_self _, hfull, hcame, ?_⟩
    rintro ⟨k, p, hp, hl, ht⟩
    exact absurd ht (h.table.lt k p hp hl).ne
  · intro r hb hlt hhas hfr
    rcases Nat.lt_succ_iff_lt_or_eq.mp hlt with hlt | rfl
    · refine h.closes r hb hlt hhas ?_
      rintro ⟨q', up, hs⟩
      exact nomatch hui.symm.trans hs
    · exact absurd ⟨q, s.isUp, rfl⟩ hfr
  · intro r hle
    exact h.fresh r ((Nat.le_succ _).trans hle)

/-- What is answered at once is a whole answer, or an end in error. -/
theorem told_atOnce {up hasQueue : Bool} {schema : ℤ}
    (h : atOnce q tag up hasQueue schema = some l) :
    (∀ r, r ≠ tag → told r l = []) ∧ Closed [] (told tag l) := by
  have herror : ∀ e, l = [.fin tag q.req (some e)] →
      (∀ r, r ≠ tag → told r l = []) ∧ Closed [] (told tag l) := by
    rintro e rfl
    refine ⟨fun r hr => by simp [hr.symm], .inr ⟨e, by simp [opened]⟩⟩
  have hwhole : ∀ off total, l = [.head tag q.req off total, .fin tag q.req none] →
      (∀ r, r ≠ tag → told r l = []) ∧ Closed [] (told tag l) := by
    rintro off total rfl
    refine ⟨fun r hr => ?_, .inl ?_⟩
    · rw [told_cons]
      simp [hr.symm]
    · rw [told_cons]
      simp
  unfold atOnce at h
  split at h
  · exact herror _ (some.inj h).symm
  split at h
  · exact herror _ (some.inj h).symm
  split at h
  · split at h
    · exact nomatch h
    · exact hwhole _ _ (some.inj h).symm
  · split at h
    · exact herror _ (some.inj h).symm
    · split at h
      · exact hwhole _ _ (some.inj h).symm
      · exact nomatch h
  · exact herror _ (some.inj h).symm
  · exact nomatch h

theorem Held.listAsk (h : s.Held) {up : Bool} (hui : s.ui = .asks q tag up)
    (schema : ℤ) (hasQueue : Bool)
    (hquiet : (atOnce q tag up hasQueue schema : Option (List (UiLine α))) = none → s.Quiet) :
    (s.listAsk q tag up schema hasQueue).Held := by
  unfold Lists.listAsk
  split
  case h_1 l hl =>
    have hat := h.atUi
    rw [AtUi, hui] at hat
    obtain ⟨hlt, hfull, hcame, hno⟩ := hat
    obtain ⟨hother, hclosed⟩ := told_atOnce hl
    obtain ⟨hout, htell⟩ := append_eq_nil_iff.mp hfull
    have hwrite := full_write (s := s) (t := { s with out := s.out ++ l, ui := .idle }) rfl rfl
    refine h.of_only (· = tag) (fun r hr => hr ▸ hlt) (sub_of_eq rfl) le_rfl rfl rfl trivial h.quiet
      ?_ ?_ (fun _ _ hp _ _ => hp) ?_ ?_
    · rintro r hr ⟨q', up', hs⟩
      rw [hui] at hs
      exact absurd (Ui.asks.inj hs).2.1.symm hr
    · intro r hr
      refine ⟨?_, rfl, fun hhas => hhas⟩
      rw [hwrite, hother r hr, append_nil]
      rfl
    · rintro k p hp hlist rfl
      exact absurd ⟨k, p, hp, hlist, rfl⟩ hno
    · rintro r rfl - - -
      rw [hwrite, hout, htell, nil_append, append_nil]
      change Closed (s.came r) _
      rw [hcame]
      exact hclosed
  case h_2 hl =>
    rw [register_eq]
    exact (h.evict _ (hquiet hl)).placeList (evict_pend s _) hui schema

/-- A request that could not be sent is told so. -/
theorem Held.notSent (h : s.Held) {id : ℕ} (hui : s.ui = .failed q tag id)
    (hspared : s.base ≤ tag → (s.recordOf id).isSome = true ∧ told tag s.tell = []) :
    (s.notSent q tag id).Held := by
  have hat := h.atUi
  rw [AtUi, hui] at hat
  obtain ⟨hlt, -, hrec⟩ := hat
  have hidle : ∀ {r}, ¬ s.Fresh r := by
    rintro r ⟨q', up, hs⟩
    exact nomatch hui.symm.trans hs
  unfold Lists.notSent
  rcases eq_none_or_eq_some (s.recordOf id) with hid | ⟨⟨k, p⟩, hid⟩
  · -- the record is gone: only a request of an earlier screen may come here
    rw [hid] at hspared ⊢
    have hold : ¬ s.base ≤ tag := fun hb => nomatch (hspared hb).1
    have hno : ¬ s.Has tag := by
      rintro ⟨k, p, hp, hl, ht⟩
      exact recordOf_none hid k p hp ((hrec k p hp).2 hl ht)
    dsimp only
    have hwrite := full_write (s := s)
      (t := { s with out := s.out ++ [.fin tag q.req (some "not connected")], ui := .idle }) rfl rfl
    refine h.of_only (· = tag) (fun r hr => hr ▸ hlt) (sub_of_eq rfl) le_rfl rfl rfl trivial h.quiet
      (fun r _ hf => absurd hf hidle) ?_ (fun _ _ hp _ _ => hp) ?_ ?_
    · intro r hr
      refine ⟨?_, rfl, fun hhas => hhas⟩
      rw [hwrite, told_fin, if_neg (Ne.symm hr), append_nil]
      rfl
    · rintro k p hp hl rfl
      exact absurd ⟨k, p, hp, hl, rfl⟩ hno
    · rintro r rfl hb
      exact absurd hb hold
  · obtain ⟨hp, hpid⟩ := recordOf_some hid
    obtain ⟨hlist, rfl⟩ := (hrec k p hp).1 hpid
    rw [hid]
    dsimp only
    have hwrite := full_write (s := s)
      (t := { s.free k with
        out := (s.free k).out ++ [.fin p.tag q.req (some "not connected")], ui := .idle }) rfl rfl
    refine h.close hp hlist rfl rfl rfl rfl trivial h.quiet (fun r hf => absurd hf hidle) ?_ ?_
    · intro r hr
      refine ⟨?_, rfl⟩
      rw [hwrite, told_fin, if_neg hr.symm, append_nil]
      rfl
    · intro hb
      have htell := (hspared hb).2
      have htold := (h.opens k p hp hlist).1
      rw [full, htell, append_nil] at htold
      refine .inr ⟨"not connected", ?_⟩
      rw [hwrite, told_fin, if_pos rfl, htell, append_nil, htold]
      rfl

/-! ### Music Assistant's answers -/

theorem comes_self (hlist : p.list = true) (l : List α) :
    s.comes p l p.tag = s.came p.tag ++ l := by
  rw [comes, if_pos hlist, update_self]

theorem comes_of_ne (hr : r ≠ p.tag) (l : List α) : s.comes p l r = s.came r := by
  unfold comes
  split
  · rw [update_of_ne hr]
  · rfl

/-- A piece: its lines stand behind those of the pieces before. -/
theorem Held.onPartial (h : s.Held) (hup : s.ses = .up) (htell : s.tell = [])
    (id : ℕ) (a : Answer α) (cur : ℤ)
    (hspared : ∀ x ∈ s.recordOf id, x.2.list = true →
      x.2.what ≠ .search ∧ (x.2.sent = 0 → a.items ≠ [])) : (s.onPartial id a cur).Held := by
  unfold Lists.onPartial
  split
  case h_1 => exact h
  case h_2 k p hid =>
    obtain ⟨hp, -⟩ := recordOf_some hid
    dsimp only
    rcases Bool.eq_false_or_eq_true p.list with hlist | hlist
    swap
    · have hcomes : s.comes p (a.all p.what) = s.came := by simp [comes, hlist]
      rw [if_pos (.inl hlist), hcomes]
      exact h
    · obtain ⟨hsearch, hne⟩ := hspared (k, p) hid hlist
      have hall : a.all p.what = a.items := by rw [Answer.all, if_neg hsearch]
      rw [if_neg (by simp [hlist, hsearch]), hall]
      obtain ⟨hfull, hsent, -⟩ := h.opens k p hp hlist
      -- only the list of this record changes
      have hhas : s.Has p.tag := ⟨k, p, hp, hlist, rfl⟩
      have hnofull : ∀ r, r ≠ p.tag → told r s.out ++ told r (onList p a cur false) = s.full r := by
        intro r hr
        rw [told_onList_of_ne hr.symm, full, htell]
        rfl
      have hrecs : ∀ j, ∀ x ∈ update s.pend k (some { p with sent := p.sent + a.items.length }) j,
          (j = k ∧ x = { p with sent := p.sent + a.items.length }) ∨ j ≠ k ∧ x ∈ s.pend j := by
        intro j x hx
        by_cases hj : j = k
        · subst hj
          left
          simpa [eq_comm] using hx
        · right
          exact ⟨hj, by simpa [hj] using hx⟩
      have hsub : ∀ t : Lists α,
          t.pend = update s.pend k (some { p with sent := p.sent + a.items.length }) → Sub s t := by
        intro t ht j x hx
        rw [ht] at hx
        rcases hrecs j x hx with ⟨rfl, rfl⟩ | ⟨-, hx⟩
        · exact ⟨p, hp, rfl, rfl, rfl⟩
        · exact ⟨x, hx, rfl, rfl, rfl⟩
      refine h.of_only (· = p.tag) (fun r hr => hr ▸ h.table.lt k p hp hlist)
        (hsub _ rfl) le_rfl rfl rfl
        ?_ (fun hne => absurd hup hne) (fun _ _ hf => hf) ?_ ?_ ?_ ?_
      · refine h.atUi.of_sub (hsub _ rfl) rfl le_rfl le_rfl fun r hr => ?_
        have hrne : r ≠ p.tag := by
          rintro rfl
          exact h.not_fresh hhas hr
        exact ⟨hnofull r hrne, comes_of_ne hrne _⟩
      · intro r hr
        refine ⟨hnofull r hr, comes_of_ne hr _, ?_⟩
        rintro ⟨j, q, hq, hql, hqt⟩
        have hj : j ≠ k := by
          rintro rfl
          rw [mem_unique hq hp] at hqt
          exact hr hqt.symm
        exact ⟨j, q, by simpa [hj] using hq, hql, hqt⟩
      · intro j x hx _ hne'
        rcases hrecs j x hx with ⟨-, rfl⟩ | ⟨-, hx⟩
        · exact absurd rfl hne'
        · exact hx
      · intro j x hx hxl hxt
        have hx' : x = { p with sent := p.sent + a.items.length } := by
          rcases hrecs j x hx with ⟨-, hx⟩ | ⟨hj, hx⟩
          · exact hx
          · exact absurd (h.table.tags j k x hx p hp hxl hlist hxt) hj
        subst hx'
        -- the first items that came opened the list
        have hzero : p.sent = 0 ↔ s.came p.tag = [] := by
          rw [hsent, length_eq_zero_iff]
        have hout : told p.tag s.out = opened (s.came p.tag) := by
          rw [← hfull, full, htell]
          simp
        refine ⟨?_, ?_, fun hs => absurd hs hsearch⟩
        · change told p.tag s.out ++ told p.tag (onList p a cur false) =
            opened (s.comes p a.items p.tag)
          rw [comes_self hlist,
            opened_append fun hc => hne (hzero.mpr hc), told_onList hsearch, hout]
          by_cases hc : s.came p.tag = []
          · simp [hc, hzero.mpr hc]
          · have hs : p.sent ≠ 0 := fun hs => hc (hzero.mp hs)
            simp [hc, hs]
        · change p.sent + a.items.length = (s.comes p a.items p.tag).length
          rw [comes_self hlist, length_append, hsent]
      · rintro r rfl - hno -
        exact absurd ⟨k, _, update_self k _ s.pend, hlist, rfl⟩ hno

/-- The end of an answer. -/
theorem Held.onResult (h : s.Held) (hup : s.ses = .up) (htell : s.tell = []) (id : ℕ)
    (a : Except String (Answer α)) (cur : ℤ) : (s.onResult id a cur).Held := by
  unfold Lists.onResult
  split
  case h_1 => exact h
  case h_2 k p hid =>
    obtain ⟨hp, -⟩ := recordOf_some hid
    cases hlist : p.list with
    | false =>
      rw [if_neg Bool.false_ne_true]
      exact h.drop hp hlist
    | true =>
      rw [if_pos rfl]
      obtain ⟨hfull, hsent, hzero⟩ := h.opens k p hp hlist
      have hhas : s.Has p.tag := ⟨k, p, hp, hlist, rfl⟩
      have hout : told p.tag s.out = opened (s.came p.tag) := by
        rw [← hfull, full, htell]
        simp
      have hne : ∀ r, s.Fresh r → r ≠ p.tag := by
        rintro r hr rfl
        exact h.not_fresh hhas hr
      cases a with
      | error e =>
        have hnofull : ∀ r, r ≠ p.tag →
            told r s.out ++ told r [(.fin p.tag p.req (some e) : UiLine α)] = s.full r := by
          intro r hr
          rw [told_fin, if_neg hr.symm, full, htell]
          rfl
        refine h.close hp hlist rfl rfl rfl rfl
          (h.atUi.of_sub (sub_free s k rfl) rfl le_rfl le_rfl fun r hr =>
            ⟨hnofull r (hne r hr), rfl⟩)
          (fun hne' => absurd hup hne') (fun _ hf => hf)
          (fun r hr => ⟨hnofull r hr, rfl⟩) fun _ => ?_
        refine .inr ⟨e, ?_⟩
        change told p.tag s.out ++ told p.tag [(.fin p.tag p.req (some e) : UiLine α)] = _
        rw [told_fin, if_pos rfl, hout]
        rfl
      | ok a =>
        have hnofull : ∀ r, r ≠ p.tag →
            told r s.out ++ told r (onList p a cur true) = s.full r := by
          intro r hr
          rw [told_onList_of_ne hr.symm, full, htell]
          rfl
        refine h.close hp hlist rfl rfl rfl rfl
          (h.atUi.of_sub (sub_free s k rfl) rfl le_rfl le_rfl fun r hr =>
            ⟨hnofull r (hne r hr), comes_of_ne (hne r hr) _⟩)
          (fun hne' => absurd hup hne') (fun _ hf => hf)
          (fun r hr => ⟨hnofull r hr, comes_of_ne hr _⟩) fun _ => ?_
        left
        change told p.tag s.out ++ told p.tag (onList p a cur true) =
          .head :: ((s.comes p (a.all p.what) p.tag).map .item ++ [.fin none])
        rw [comes_self hlist, hout]
        -- a search shows nothing until its end
        by_cases hsearch : p.what = .search
        · have hcame : s.came p.tag = [] := by
            rw [← length_eq_zero_iff, ← hsent]
            exact hzero hsearch
          rw [told_onList_search hsearch, hcame, hsearch]
          simp [opened]
        · rw [told_onList hsearch, Answer.all, if_neg hsearch]
          by_cases hc : s.came p.tag = []
          · have hs : p.sent = 0 := by rw [hsent, hc]; rfl
            simp [opened, hc, hs]
          · have hs : p.sent ≠ 0 := by
              rw [hsent]
              exact fun h0 => hc (length_eq_zero_iff.mp h0)
            simp [opened, hc, hs]

/-! ### The session's end -/

/-- What the only element that brings something brings. -/
theorem flatMap_eq_of_unique {ι β : Type*} {l : List ι} (hl : l.Nodup) {f : ι → List β} {i : ι}
    (hi : i ∈ l) (h : ∀ j ∈ l, j ≠ i → f j = []) : l.flatMap f = f i := by
  induction l with
  | nil => exact nomatch hi
  | cons a l ih =>
    obtain ⟨ha, hl⟩ := nodup_cons.mp hl
    rw [flatMap_cons]
    rcases mem_cons.mp hi with rfl | hi
    · have hrest : l.flatMap f = [] := by
        rw [flatMap_eq_nil_iff]
        intro j hj
        exact h j (mem_cons_of_mem _ hj) fun heq => ha (heq ▸ hj)
      rw [hrest, append_nil]
    · have hne : a ≠ i := fun heq => ha (heq ▸ hi)
      rw [h a mem_cons_self hne, nil_append]
      exact ih hl hi fun j hj => h j (mem_cons_of_mem _ hj)

/-- What a slot has to be told of at the session's end. -/
theorem told_slot (r : ℕ) (k : Fin 64) :
    told r (((s.pend k).map (endOf "connection lost")).getD [] : List (UiLine α)) =
      if (s.pend k).any (fun p => p.list && p.tag == r) then
        [.fin (some "connection lost")] else [] := by
  cases s.pend k with
  | none => rfl
  | some p =>
    rw [map_some, getD_some, told_endOf]
    simp

/-- A request with a record is told of its end, the others of nothing. -/
theorem told_lost (h : s.Table) (r : ℕ) :
    (s.Has r → told r s.lost = [.fin (some "connection lost")]) ∧
    (¬ s.Has r → told r s.lost = []) := by
  have hmap : told r s.lost = (List.finRange 64).flatMap fun k =>
      told r (((s.pend k).map (endOf "connection lost")).getD [] : List (UiLine α)) :=
    filterMap_flatMap
  have hany : ∀ k, (s.pend k).any (fun p => p.list && p.tag == r) = true ↔
      ∃ p ∈ s.pend k, p.list = true ∧ p.tag = r := by
    intro k
    cases s.pend k <;> simp
  rw [hmap]
  constructor
  · rintro ⟨k, p, hp, hl, ht⟩
    rw [flatMap_eq_of_unique (nodup_finRange 64) (mem_finRange k), told_slot, if_pos]
    · exact (hany k).mpr ⟨p, hp, hl, ht⟩
    · intro j _ hj
      rw [told_slot, if_neg]
      rw [hany j]
      rintro ⟨q, hq, hql, hqt⟩
      exact hj (h.tags j k q hq p hp hql hl (hqt.trans ht.symm))
  · intro hno
    rw [flatMap_eq_nil_iff]
    intro k _
    rw [told_slot, if_neg]
    rw [hany k]
    rintro ⟨p, hp, hl, ht⟩
    exact hno ⟨k, p, hp, hl, ht⟩

theorem Held.ends (h : s.Held) (hses : s.ses = .shut) :
    Held { s with out := s.out ++ s.lost, pend := fun _ => none, ses := .down } := by
  have htell : s.tell = [] := h.quiet (by rw [hses]; exact nofun)
  have hfull : ∀ r,
      Lists.full { s with out := s.out ++ s.lost, pend := fun _ => none, ses := .down } r =
      s.full r ++ told r s.lost := by
    intro r
    have hwrite := full_write (s := s)
      (t := { s with out := s.out ++ s.lost, pend := fun _ => none, ses := .down }) rfl rfl r
    rw [hwrite, full, htell]
    simp
  have hsub : Sub s { s with out := s.out ++ s.lost, pend := fun _ => none, ses := .down } := by
    intro k p hp
    exact nomatch hp
  refine h.of_only s.Has ?_ hsub le_rfl rfl rfl ?_ (fun _ => htell) (fun _ _ hf => hf) ?_ ?_ ?_ ?_
  · rintro r ⟨k, p, hp, hl, rfl⟩
    exact h.table.lt k p hp hl
  · refine h.atUi.of_sub hsub rfl le_rfl le_rfl fun r hr => ⟨?_, rfl⟩
    rw [hfull, (told_lost h.table r).2 fun hhas => h.not_fresh hhas hr, append_nil]
  · intro r hr
    refine ⟨?_, rfl, fun hhas => absurd hhas hr⟩
    rw [hfull, (told_lost h.table r).2 hr, append_nil]
  · intro k p hp
    exact nomatch hp
  · intro k p hp
    exact nomatch hp
  · intro r hhas _ _ _
    rw [hfull, (told_lost h.table r).1 hhas]
    obtain ⟨k, p, hp, hl, rfl⟩ := hhas
    refine .inr ⟨"connection lost", ?_⟩
    rw [(h.opens k p hp hl).1]

/-- A line is written. -/
theorem Held.tells (h : s.Held) {x : UiLine α} (htell : s.tell = x :: l) :
    Held { s with out := s.out ++ [x], tell := l } := by
  have hfull : ∀ r, Lists.full { s with out := s.out ++ [x], tell := l } r = s.full r := by
    intro r
    rw [full, full, htell, told_append, told_cons r x l, append_assoc]
  have hsub : Sub s { s with out := s.out ++ [x], tell := l } := sub_of_eq rfl
  refine h.of_none hsub le_rfl rfl rfl ?_ ?_ (fun _ hf => hf) ?_ (fun _ _ hp _ => hp)
  · exact h.atUi.of_sub hsub rfl le_rfl le_rfl fun r _ => ⟨hfull r, rfl⟩
  · intro hne
    exact nomatch htell.symm.trans (h.quiet hne)
  · exact fun r => ⟨hfull r, rfl, fun hhas => hhas⟩

/-- The session's thread goes elsewhere, with nothing left to write. -/
theorem Held.goes (h : s.Held) (ses : Ses) (htell : s.tell = []) : Held { s with ses := ses } := by
  have hsub : Sub s { s with ses := ses } := sub_of_eq rfl
  exact h.of_none hsub le_rfl rfl rfl
    (h.atUi.of_sub hsub rfl le_rfl le_rfl fun _ _ => ⟨rfl, rfl⟩) (fun _ => htell) (fun _ hf => hf)
    (fun _ => ⟨rfl, rfl, fun hhas => hhas⟩) (fun _ _ hp _ => hp)

/-- A new screen: what the one before asked for counts no more. -/
theorem Held.replay (h : s.Held) :
    Held { s with pend := fun k => (s.pend k).filter fun p => !p.list, base := s.asked } := by
  have hmem : ∀ k, ∀ p ∈ (s.pend k).filter fun p => !p.list, p ∈ s.pend k ∧ p.list = false := by
    intro k p hp
    simpa [filter_eq_some_iff] using hp
  have hsub :
      Sub s { s with pend := fun k => (s.pend k).filter fun p => !p.list, base := s.asked } :=
    fun k p hp => ⟨p, (hmem k p hp).1, rfl, rfl, rfl⟩
  refine ⟨h.table.of_sub hsub le_rfl le_rfl,
    h.atUi.of_sub hsub rfl le_rfl le_rfl fun _ _ => ⟨rfl, rfl⟩, h.quiet, ?_, ?_, h.fresh⟩
  · intro k p hp hl
    exact nomatch (hmem k p hp).2.symm.trans hl
  · intro r hb hlt
    exact absurd hlt (Nat.not_lt.mpr hb)

/-! ### Every step -/

theorem Held.stepUi (h : s.Held) {e : Act α} (hspared : s.Spared e) : (s.stepUi e).Held := by
  cases e with
  | ml q =>
    simp only [Lists.stepUi]
    split
    case isTrue hui => exact h.massUi hui q
    case isFalse => exact h
  | asks schema hasQueue =>
    simp only [Lists.stepUi]
    split
    case h_1 q tag up hui => exact h.listAsk hui schema hasQueue (hspared q tag up hui)
    case h_2 => exact h
  | sends ok =>
    simp only [Lists.stepUi]
    split
    case h_1 q tag id hui =>
      have hat := h.atUi
      rw [AtUi, hui] at hat
      have hfresh : ∀ {r}, ¬ s.Fresh r := by
        rintro r ⟨q', up, hs⟩
        exact nomatch hui.symm.trans hs
      have hgoes : ∀ ui, AtUi { s with ui := ui } → Held { s with ui := ui } := fun ui hat' =>
        h.of_none (sub_of_eq rfl) le_rfl rfl rfl hat' h.quiet (fun r hf => absurd hf hfresh)
          (fun r => ⟨rfl, rfl, fun hhas => hhas⟩) (fun _ _ hp _ => hp)
      by_cases hok : ok = true ∧ s.isOpen = true
      · rw [if_pos hok]
        exact hgoes .idle trivial
      · rw [if_neg hok]
        exact hgoes (.failed q tag id) hat
    case h_2 => exact h
  | gives =>
    simp only [Lists.stepUi]
    split
    case h_1 q tag id hui => exact h.notSent hui (hspared q tag id hui)
    case h_2 => exact h
  | _ => exact h

theorem Held.stepSes (h : s.Held) {e : Act α} (hspared : s.Spared e) : (s.stepSes e).Held := by
  cases e with
  | opens =>
    simp only [Lists.stepSes]
    split
    case isTrue hses => exact h.goes .connected (h.quiet (by rw [hses]; exact nofun))
    case isFalse => exact h
  | refused =>
    simp only [Lists.stepSes]
    split
    case isTrue hses => exact h.goes .down (h.quiet (by rw [hses]; exact nofun))
    case isFalse => exact h
  | welcome =>
    simp only [Lists.stepSes]
    split
    case isTrue hses => exact h.goes .up (h.quiet (by rw [hses]; exact nofun))
    case isFalse => exact h
  | shuts =>
    simp only [Lists.stepSes]
    split
    case isTrue hses => exact h.goes .shut hses.2
    case isFalse => exact h
  | ends =>
    simp only [Lists.stepSes]
    split
    case isTrue hses => exact h.ends hses
    case isFalse => exact h
  | piece id a cur =>
    simp only [Lists.stepSes]
    split
    case isTrue hses => exact h.onPartial hses.1 hses.2 id a cur hspared
    case isFalse => exact h
  | result id a cur =>
    simp only [Lists.stepSes]
    split
    case isTrue hses => exact h.onResult hses.1 hses.2 id a cur
    case isFalse => exact h
  | tells =>
    simp only [Lists.stepSes]
    split
    case h_1 => exact h
    case h_2 x l htell => exact h.tells htell
  | _ => exact h

/-- **What holds of the table and the lines holds after every step** that is spared. -/
theorem Held.step (h : s.Held) {e : Act α} (hspared : s.Spared e) : (s.step e).Held := by
  cases e with
  | other =>
    simp only [Lists.step]
    rw [register_eq]
    exact (h.evict _ hspared).placeOther (evict_pend s _) rfl
  | otherGone id =>
    simp only [Lists.step]
    split
    case h_1 k p hid =>
      split
      case isTrue => exact h
      case isFalse hl => exact h.drop (recordOf_some hid).1 (by simpa using hl)
    case h_2 => exact h
  | replay => exact h.replay
  | ml q => exact h.stepUi hspared
  | asks schema hasQueue => exact h.stepUi hspared
  | sends ok => exact h.stepUi hspared
  | gives => exact h.stepUi hspared
  | opens => exact h.stepSes hspared
  | refused => exact h.stepSes hspared
  | welcome => exact h.stepSes hspared
  | shuts => exact h.stepSes hspared
  | ends => exact h.stepSes hspared
  | piece id a cur => exact h.stepSes hspared
  | result id a cur => exact h.stepSes hspared
  | tells => exact h.stepSes hspared

theorem held_init : ({} : Lists α).Held where
  table := ⟨nofun, nofun, nofun, nofun⟩
  atUi := trivial
  quiet := fun _ => rfl
  opens := nofun
  closes := fun r _ hlt => absurd hlt (Nat.not_lt_zero r)
  fresh := fun _ _ => ⟨rfl, rfl⟩

end Lists

open Mass.Lists

/-! ### Runs -/

/-- A list begins once. -/
theorem Shape.head_notMem {x : Said α} (h : Shape came (x :: t)) :
    .head ∉ t := by
  generalize hu : x :: t = u at h
  cases h with
  | silent => exact nomatch hu
  | started hl =>
    obtain ⟨-, rfl⟩ := List.cons.inj hu
    simp
  | whole =>
    obtain ⟨-, rfl⟩ := List.cons.inj hu
    simp
  | refused e =>
    obtain ⟨-, rfl⟩ := List.cons.inj hu
    simp
  | broken hl e =>
    obtain ⟨-, rfl⟩ := List.cons.inj hu
    simp

/-- An album's tracks. -/
def tracks : Query := ⟨5, .inside .albumTracks true, 0⟩

/-- A session is up, and the album's tracks are asked for. -/
def asksTracks : List (Act ℕ) := [.opens, .welcome, .ml tracks, .asks 90 true]

/-- Three items in two pieces, and the end. -/
def inPieces : List (Act ℕ) :=
  [.sends true, .piece 1 ⟨[1, 2], fun _ => []⟩ 0, .tells, .tells, .tells,
    .piece 1 ⟨[3], fun _ => []⟩ 0, .tells, .result 1 (.ok ⟨[], fun _ => []⟩) 0, .tells]

/-- With nothing being told, any record may go. -/
theorem quiet_of_tell {s : Lists α} (h : s.tell = []) : s.Quiet := by
  intro p _ _
  rw [h]
  rfl

/-- The session ends between the record and the sending. -/
def sessionLost : List (Act ℕ) := [.shuts, .ends, .sends true, .gives]

/-- An empty piece comes before the others. -/
def emptyPiece : List (Act ℕ) :=
  [.sends true, .piece 1 ⟨[], fun _ => []⟩ 0, .tells,
    .result 1 (.ok ⟨[1], fun _ => []⟩) 0, .tells, .tells, .tells]

end Hassmic.Mass
