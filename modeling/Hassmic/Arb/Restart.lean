import Hassmic.Arb.Lines
import Hassmic.Arb.Membership
import Hassmic.Arb.Rivals

/-!
# What a restart finds

The state file holds the samples of the window and the rounds of the rivals as lines, in their
order.  A start reads them back into other places of the tables; what is learned from them does not
depend on the places.

## Main definitions

* `Restores` — a state read back from the file of another.
* `Judges` — two states wait alike.

## Main results

* `learned_of_kept` — the window depends on the samples kept alone.
* `observed_load` — the rounds of each rival, while they fit.
* `restores_iff` — **when a restart finds everything again**.
* `restores_zero` — a network `0` is not found again.
-/

namespace Hassmic.Arb

open Byte Text List Function
open scoped Slots

/-! ### The window, by the samples kept -/

/-- The percentile does not depend on the order. -/
theorem p95_perm {v w : List ℤ} (h : v.Perm w) : St.p95 v = St.p95 w := by
  have hsorted : v.mergeSort (· ≤ ·) = w.mergeSort (· ≤ ·) := by
    have hperm : (v.mergeSort (· ≤ ·)).Perm (w.mergeSort (· ≤ ·)) :=
      ((mergeSort_perm v _).trans h).trans (mergeSort_perm w _).symm
    exact hperm.eq_of_pairwise' (pairwise_mergeSort' (· ≤ ·) v) (pairwise_mergeSort' (· ≤ ·) w)
  unfold St.p95
  rw [hsorted, h.length_eq]

namespace St

variable (C : Crypto) (s t : St)

/-- The places of the samples, the oldest first. -/
def delaySlots : List (Fin nDelay) :=
  (List.range (min s.ndelay nDelay)).map fun k => Fin.ofNat nDelay (s.ndelay - nDelay + k)

/-- These are the places in use. -/
theorem perm_delaySlots :
    s.delaySlots.Perm ((finRange nDelay).filter fun j => decide (j.1 < s.ndelay)) := by
  have hsize : nDelay = 64 := rfl
  have hnodup : s.delaySlots.Nodup := by
    refine List.Nodup.map_on ?_ nodup_range
    intro a ha b hb hab
    have ha := mem_range.mp ha
    have hb := mem_range.mp hb
    have hval : (s.ndelay - nDelay + a) % nDelay = (s.ndelay - nDelay + b) % nDelay :=
      congrArg Fin.val hab
    rw [hsize] at ha hb hval
    omega
  refine (perm_ext_iff_of_nodup hnodup ((nodup_finRange nDelay).filter _)).mpr fun j => ?_
  have hj : j.1 < 64 := j.2
  have hmem : j ∈ s.delaySlots ↔
      ∃ k < min s.ndelay nDelay, (s.ndelay - nDelay + k) % nDelay = j.1 := by
    unfold delaySlots
    rw [mem_map]
    constructor
    · rintro ⟨k, hk, hval⟩
      exact ⟨k, mem_range.mp hk, congrArg Fin.val hval⟩
    · rintro ⟨k, hk, hval⟩
      exact ⟨k, mem_range.mpr hk, Fin.ext hval⟩
  rw [hmem, mem_filter, decide_eq_true_eq]
  show (∃ k < min s.ndelay 64, (s.ndelay - 64 + k) % 64 = j.1) ↔ _
  constructor
  · rintro ⟨k, hk, hval⟩
    exact ⟨mem_finRange j, by omega⟩
  · rintro ⟨-, hlt⟩
    exact ⟨(j.1 + 64 - (s.ndelay - 64) % 64) % 64, by omega, by omega⟩

/-- A member's samples are those kept of it. -/
theorem perm_samplesOf (p : Peer) :
    (s.samplesOf p).Perm ((s.keptDelays.filter fun d => d.id == p.id).map fun d => d.ms.toInt) := by
  have hkept : s.keptDelays = (s.delaySlots.map s.delays).filter fun d => decide (0 ≤ d.ms) := by
    unfold keptDelays delaySlots
    rw [map_map]
    rfl
  have hsamples : s.samplesOf p =
      ((((finRange nDelay).filter fun j => decide (j.1 < s.ndelay)).filter
      fun j => decide (0 ≤ (s.delays j).ms) && (s.delays j).id == p.id).map fun j =>
      (s.delays j).ms.toInt) := by
    unfold samplesOf
    rw [filter_filter]
    refine congrArg _ (filter_congr fun j _ => ?_)
    rw [Bool.and_assoc, Bool.and_comm]
  have hall : ((s.delaySlots.map s.delays).filter fun d => decide (0 ≤ d.ms)).filter
      (fun d => d.id == p.id) =
      (s.delaySlots.filter fun j =>
        decide (0 ≤ (s.delays j).ms) && (s.delays j).id == p.id).map s.delays := by
    rw [filter_filter, filter_map]
    refine congrArg (List.map s.delays) (filter_congr fun j _ => ?_)
    exact Bool.and_comm _ _
  rw [hkept, hsamples, hall, map_map]
  exact (s.perm_delaySlots.symm.filter _).map _

/-- What one entry of the table of peers adds. -/
def gatherOne (now : ℤ) (r : List ℤ × ℤ) (i : Fin nPeer) : List ℤ × ℤ :=
  if s.waited (s.peers i) now then
    (r.1 ++ s.samplesOf (s.peers i),
      if autoPeerMin ≤ (s.samplesOf (s.peers i)).length then
        max r.2 (p95 (s.samplesOf (s.peers i)) + autoMarginMs) else r.2)
  else r

/-- **The window depends on the samples kept alone.** -/
theorem learned_of_kept {s t : St} (hpeers : t.peers = s.peers)
    (hwant : t.round.want = s.round.want) (hpace : t.pace = s.pace)
    (hkept : t.keptDelays = s.keptDelays) (now : ℤ) : t.learned now = s.learned now := by
  have hsamples : ∀ p, (t.samplesOf p).Perm (s.samplesOf p) := by
    intro p
    have ht := t.perm_samplesOf p
    rw [hkept] at ht
    exact ht.trans (s.perm_samplesOf p).symm
  have hwaited : ∀ p, t.waited p now = s.waited p now := by
    intro p
    unfold waited peerTtlMs paced
    rw [hwant, hpace]
  have hone : ∀ (r u : List ℤ × ℤ) (i : Fin nPeer), r.1.Perm u.1 ∧ r.2 = u.2 →
      (t.gatherOne now r i).1.Perm (s.gatherOne now u i).1 ∧
        (t.gatherOne now r i).2 = (s.gatherOne now u i).2 := by
    intro r u i h
    unfold gatherOne
    rw [hwaited, hpeers]
    split
    · have hp := hsamples (s.peers i)
      refine ⟨h.1.append hp, ?_⟩
      dsimp only
      rw [hp.length_eq, p95_perm hp, h.2]
    · exact h
  have hgather : (t.gather now).1.Perm (s.gather now).1 ∧ (t.gather now).2 = (s.gather now).2 := by
    have hfold : ∀ (l : List (Fin nPeer)) (r u : List ℤ × ℤ), r.1.Perm u.1 ∧ r.2 = u.2 →
        (l.foldl (t.gatherOne now) r).1.Perm (l.foldl (s.gatherOne now) u).1 ∧
          (l.foldl (t.gatherOne now) r).2 = (l.foldl (s.gatherOne now) u).2 := by
      intro l
      induction l with
      | nil => exact fun r u h => h
      | cons i l ih => exact fun r u h => ih _ _ (hone r u i h)
    exact hfold (finRange nPeer) ([], 0) ([], 0) ⟨.refl _, rfl⟩
  have hnil : (t.gather now).1 = [] ↔ (s.gather now).1 = [] := by
    rw [← length_eq_zero_iff, hgather.1.length_eq, length_eq_zero_iff]
  unfold learned
  dsimp only
  rw [hgather.1.length_eq, hgather.2, p95_perm hgather.1]
  simp only [hnil]

/-! ### Rounds read back -/

/-- A ring that is not full keeps the next round behind the others. -/
theorem oldest_next (o : Fin obsKeep → Obs) (n : ℕ) (hn : n < obsKeep) (x : Obs)
    (id : Blob 8) (at_ : ℤ) (hle : n + 1 ≤ obsKeep) :
    oldest { id := id, n := n + 1, next := n + 1, at_ := at_, o := update o (Fin.ofNat obsKeep n) x,
             n_le := hle } =
      (List.range n).map (fun k => o (Fin.ofNat obsKeep k)) ++ [x] := by
  unfold oldest
  dsimp only
  rw [Nat.sub_self, range_succ, map_append, map_singleton]
  refine congrArg₂ (· ++ ·) (map_congr_left fun k hk => ?_) ?_
  · have hkn : k < n := mem_range.mp hk
    have hne : Fin.ofNat obsKeep (0 + k) ≠ Fin.ofNat obsKeep n := by
      intro h
      have hval : (0 + k) % obsKeep = n % obsKeep := congrArg Fin.val h
      rw [Nat.zero_add, Nat.mod_eq_of_lt (hkn.trans hn), Nat.mod_eq_of_lt hn] at hval
      omega
    rw [update_of_ne hne, Nat.zero_add]
  · rw [Nat.zero_add, update_self]

/-- **Rounds read into one entry** stand there in their order. -/
theorem foldl_observe (i : Fin nPeer) (L : List Obs) :
    ∀ t : St, (t.rivals i).next = (t.rivals i).n → (t.rivals i).n + L.length ≤ obsKeep →
      ∀ u, u = L.foldl (fun (t : St) o => t.observe i o.own o.d 1) t →
        (∀ j, j ≠ i → u.rivals j = t.rivals j) ∧ (u.rivals i).id = (t.rivals i).id ∧
          (u.rivals i).n = (t.rivals i).n + L.length ∧ (u.rivals i).next = (u.rivals i).n ∧
          oldest (u.rivals i) = oldest (t.rivals i) ++ L ∧ (L ≠ [] → (u.rivals i).at_ = 1) := by
  induction L with
  | nil =>
    rintro t hring - u rfl
    exact ⟨fun _ _ => rfl, rfl, rfl, hring, (append_nil _).symm, fun h => absurd rfl h⟩
  | cons o L ih =>
    intro t hring hlen u hu
    rw [length_cons] at hlen
    have hroom : (t.rivals i).n < obsKeep := by omega
    have hself : (t.observe i o.own o.d 1).rivals i =
        { id := (t.rivals i).id, n := (t.rivals i).n + 1, next := (t.rivals i).n + 1, at_ := 1
          o := update (t.rivals i).o (Fin.ofNat obsKeep (t.rivals i).n) o, n_le := hroom } := by
      unfold observe
      dsimp only
      rw [update_self]
      simp only [hroom, if_true, hring]
    have hother : ∀ j, j ≠ i → (t.observe i o.own o.d 1).rivals j = t.rivals j := fun j hj =>
      update_of_ne hj _ _
    have holdest : oldest ((t.observe i o.own o.d 1).rivals i) = oldest (t.rivals i) ++ [o] := by
      have hbefore : oldest (t.rivals i) =
          (List.range (t.rivals i).n).map fun k => (t.rivals i).o (Fin.ofNat obsKeep k) := by
        unfold oldest
        rw [hring, Nat.sub_self]
        simp only [Nat.zero_add]
      rw [hself, hbefore]
      exact oldest_next _ _ hroom o _ _ _
    obtain ⟨hrest, hid, hn, hnext, hkept, hmark⟩ := ih (t.observe i o.own o.d 1) (by rw [hself])
      (by rw [hself]; dsimp only; omega) u hu
    rw [hself] at hid hn
    refine ⟨fun j hj => (hrest j hj).trans (hother j hj), hid, ?_, hnext, ?_, fun _ => ?_⟩
    · rw [hn, length_cons]
      dsimp only
      omega
    · rw [hkept, holdest, append_assoc, singleton_append]
    · cases L with
      | nil =>
        rw [hu]
        exact congrArg Rival.at_ hself
      | cons o' L => exact hmark (cons_ne_nil o' L)

/-! ### A table that is filled -/

/-- **A table that is filled from a file**: at most `k` entries are in use, all marked alike, and
the others are as at the start. -/
structure Filling (r : Fin nPeer → Rival) (k : ℕ) : Prop where
  tidy : Tidy r
  mark : ∀ i, (r i).n ≠ 0 → (r i).at_ = 1
  free : ∀ i, (r i).n = 0 → r i = {}
  room : (Finset.univ.filter fun i => (r i).n ≠ 0).card ≤ k

theorem filling_empty : Filling (fun _ => {}) 0 :=
  ⟨tidy_empty, fun _ h => absurd rfl h, fun _ _ => rfl, by simp⟩

/-- While there is room, a free entry is taken. -/
theorem rivalReuse_free {k : ℕ} (h : Filling s.rivals k) (hk : k < nPeer) :
    (s.rivals s.rivalReuse).n = 0 := by
  obtain ⟨i, hi⟩ : ∃ i, (s.rivals i).n = 0 := by
    by_contra hnone
    have hall : (Finset.univ.filter fun i => (s.rivals i).n ≠ 0) = Finset.univ :=
      Finset.filter_true_of_mem fun i _ hi => hnone ⟨i, hi⟩
    have hroom := h.room
    rw [hall, Finset.card_univ, Fintype.card_fin] at hroom
    omega
  -- once a free entry was met, the one held is free: those in use bear a later mark
  have hfold : ∀ (l : List (Fin nPeer)) (o : Fin nPeer), ((s.rivals o).n = 0 ∨ i ∈ l) →
      (s.rivals (l.foldl (fun o i =>
        if (s.rivals i).n = 0 ∨ (s.rivals i).at_ < (s.rivals o).at_ then i else o) o)).n = 0 := by
    intro l
    induction l with
    | nil =>
      intro o ho
      rcases ho with ho | ho
      · exact ho
      · cases ho
    | cons j l ih =>
      intro o ho
      rw [foldl_cons]
      refine ih _ ?_
      by_cases hj : (s.rivals j).n = 0
      · rw [if_pos (.inl hj)]
        exact .inl hj
      · rcases ho with ho | ho
        · have hfree : (s.rivals o).at_ = 0 := by rw [h.free o ho]
          have hused : (s.rivals j).at_ = 1 := h.mark j hj
          rw [if_neg (by rw [hfree, hused]; rintro (h | h); exacts [hj h, absurd h (by decide)])]
          exact .inl ho
        · rcases mem_cons.mp ho with rfl | ho
          · exact absurd hi hj
          · exact .inr ho
  exact hfold (finRange nPeer) 0 (.inr (mem_finRange i))

/-- The entry for `id`, if there is one, is in use. -/
def Knows (id : Blob 8) : Prop := ∃ i, (s.rivals i).n ≠ 0 ∧ (s.rivals i).id = id

theorem observed_of_not_knows {id : Blob 8} (h : ¬ s.Knows id) : s.observed id = [] :=
  observed_none fun i hn hid => h ⟨i, hn, hid⟩

/-- **A rival is read into a free entry.** -/
theorem filling_obsLine {k : ℕ} (h : Filling s.rivals k) (hk : k < nPeer) {v : Rival}
    (hnew : ¬ s.Knows v.id) {u : St} (hu : u = loadLine C s (obsLine v)) :
    Filling u.rivals (k + 1) ∧ u.observed v.id = (oldest v).takeWhile fits ∧
      (∀ id, id ≠ v.id → u.observed id = s.observed id) ∧
      ∀ id, u.Knows id → id = v.id ∨ s.Knows id := by
  -- a new rival takes an entry that is free
  have hfree := s.rivalReuse_free h hk
  have hrival : s.rival v.id =
      (s.rivalReuse, { s with rivals := update s.rivals s.rivalReuse { id := v.id } }) := by
    unfold rival
    cases hfind : s.rivalFind v.id with
    | none => rfl
    | some i => exact absurd ⟨i, s.rivalFind_some hfind⟩ hnew
  rw [loadLine_obsLine, hrival] at hu
  dsimp only at hu
  generalize s.rivalReuse = i at hfree hu
  generalize ht : { s with rivals := update s.rivals i { id := v.id } } = t at hu
  have hti : t.rivals i = { id := v.id } := by rw [← ht]; exact update_self i _ _
  have htj : ∀ j, j ≠ i → t.rivals j = s.rivals j := fun j hj => by
    rw [← ht]; exact update_of_ne hj _ _
  have hlen : ((oldest v).takeWhile fits).length ≤ obsKeep := by
    have holdest : (oldest v).length = v.n := by
      unfold oldest
      rw [length_map, length_range]
    have hle := (takeWhile_sublist fits (l := oldest v)).length_le
    have hn := v.n_le
    omega
  -- its rounds are observed again, the oldest first
  obtain ⟨hrest, hid, hn, hnext, hkept, hmark⟩ := foldl_observe i ((oldest v).takeWhile fits) t
    (by rw [hti]) (by rw [hti]; dsimp only; omega) _ rfl
  generalize ((oldest v).takeWhile fits).foldl (fun (t : St) o => t.observe i o.own o.d 1) t = w
    at hu hrest hid hn hnext hkept hmark
  rw [hti] at hid hn hkept
  have hempty : oldest ({ id := v.id } : Rival) = [] := rfl
  rw [hempty, nil_append] at hkept
  have hwj : ∀ j, j ≠ i → w.rivals j = s.rivals j := fun j hj => (hrest j hj).trans (htj j hj)
  by_cases hzero : (w.rivals i).n = 0
  · -- no round was read: the entry is free again
    rw [if_pos hzero] at hu
    have hnone : (oldest v).takeWhile fits = [] := by
      rw [hn] at hzero
      dsimp only at hzero
      exact length_eq_zero_iff.mp (by omega)
    have hrivals : u.rivals = s.rivals := by
      funext j
      rw [hu]
      dsimp only
      by_cases hj : j = i
      · rw [hj, update_self, h.free i hfree]
      · rw [update_of_ne hj, hwj j hj]
    have hobserved : u.observed = s.observed := by
      funext id
      unfold observed rivalFind
      rw [hrivals]
    unfold Knows
    rw [hrivals, hobserved, hnone]
    exact ⟨⟨h.tidy, h.mark, h.free, h.room.trans (Nat.le_succ k)⟩, s.observed_of_not_knows hnew,
      fun _ _ => rfl, fun _ hknows => .inr hknows⟩
  · rw [if_neg hzero] at hu
    rw [hu]
    have hsome : (oldest v).takeWhile fits ≠ [] := by
      intro hnil
      rw [hn, hnil] at hzero
      exact hzero rfl
    have hupdate : w.rivals = update s.rivals i (w.rivals i) := by
      funext j
      by_cases hj : j = i
      · rw [hj, update_self]
      · rw [update_of_ne hj, hwj j hj]
    have htidy : Tidy w.rivals := by
      rw [hupdate]
      exact h.tidy.update i hnext.ge fun _ j _ hj hid' => hnew ⟨j, hj, hid'.trans hid⟩
    refine ⟨⟨htidy, fun j hj => ?_, fun j hj => ?_, ?_⟩, ?_, fun id hne => ?_, fun id hknows => ?_⟩
    · by_cases hji : j = i
      · rw [hji]
        exact hmark hsome
      · rw [hwj j hji] at hj ⊢
        exact h.mark j hj
    · by_cases hji : j = i
      · rw [hji] at hj
        exact absurd hj hzero
      · rw [hwj j hji] at hj ⊢
        exact h.free j hj
    -- at most one entry more is taken
    · have hsub : (Finset.univ.filter fun j => (w.rivals j).n ≠ 0) ⊆
          insert i (Finset.univ.filter fun j => (s.rivals j).n ≠ 0) := by
        intro j hj
        rw [Finset.mem_insert, Finset.mem_filter]
        by_cases hji : j = i
        · exact .inl hji
        · have hused := (Finset.mem_filter.mp hj).2
          rw [hwj j hji] at hused
          exact .inr ⟨Finset.mem_univ j, hused⟩
      have hroom := h.room
      exact (Finset.card_le_card hsub).trans ((Finset.card_insert_le _ _).trans (by omega))
    · have hobs := observed_of htidy hzero
      rw [hid, hkept] at hobs
      exact hobs
    · by_cases hknows : s.Knows id
      · obtain ⟨j, hj, rfl⟩ := hknows
        have hji : j ≠ i := by
          rintro rfl
          exact hj hfree
        have hwused : (w.rivals j).n ≠ 0 := by
          rw [hwj j hji]
          exact hj
        have hobs := observed_of htidy hwused
        rw [hwj j hji] at hobs
        rw [hobs, observed_of h.tidy hj]
      · rw [s.observed_of_not_knows hknows]
        refine observed_none fun j hj hjid => ?_
        by_cases hji : j = i
        · rw [hji, hid] at hjid
          exact hne hjid.symm
        · rw [hwj j hji] at hj hjid
          exact hknows ⟨j, hj, hjid⟩
    · obtain ⟨j, hj, hjid⟩ := hknows
      by_cases hji : j = i
      · rw [hji, hid] at hjid
        exact .inl hjid.symm
      · rw [hwj j hji] at hj hjid
        exact .inr ⟨j, hj, hjid⟩

/-- **The lines of the rivals** are read into one entry each. -/
theorem filling_obsLines (V : List Rival) : ∀ (t : St) (k : ℕ), Filling t.rivals k →
    k + V.length ≤ nPeer →
    (V.map (·.id)).Nodup → (∀ v ∈ V, ¬ t.Knows v.id) →
    ∀ u, u = (V.map obsLine).foldl (loadLine C) t →
      Tidy u.rivals ∧ (∀ v ∈ V, u.observed v.id = (oldest v).takeWhile fits) ∧
        ∀ id, id ∉ V.map (·.id) → u.observed id = t.observed id := by
  induction V with
  | nil =>
    rintro t k h - - - u rfl
    exact ⟨h.tidy, fun v hv => absurd hv not_mem_nil, fun _ _ => rfl⟩
  | cons v V ih =>
    intro t k h hroom hids hnew u hu
    rw [length_cons] at hroom
    rw [map_cons, nodup_cons] at hids
    obtain ⟨hfill, hself, hother, hknows⟩ :=
      t.filling_obsLine C h (by omega) (hnew v mem_cons_self) rfl
    have hlater : ∀ w ∈ V, w.id ≠ v.id := by
      intro w hw hid
      refine hids.1 ?_
      rw [← hid]
      exact mem_map_of_mem hw
    have hfresh : ∀ w ∈ V, ¬ (loadLine C t (obsLine v)).Knows w.id := by
      intro w hw hk
      rcases hknows w.id hk with hid | hk
      · exact hlater w hw hid
      · exact hnew w (mem_cons_of_mem v hw) hk
    obtain ⟨htidy, hall, hrest⟩ := ih _ (k + 1) hfill (by omega) hids.2 hfresh u hu
    refine ⟨htidy, fun w hw => ?_, fun id hid => ?_⟩
    · rcases mem_cons.mp hw with rfl | hw
      · rw [hrest w.id hids.1, hself]
      · exact hall w hw
    · rw [map_cons, mem_cons, not_or] at hid
      rw [hrest id hid.2, hother id hid.1]

theorem delays_obsLines (V : List Rival) (t : St) :
    (((V.map obsLine).foldl (loadLine C) t).delays, ((V.map obsLine).foldl (loadLine C) t).ndelay) =
      (t.delays, t.ndelay) := by
  induction V generalizing t with
  | nil => rfl
  | cons v V ih =>
    rw [map_cons, foldl_cons, ih, loadLine_rival]
    exact t.delays_loadObs v.id _

/-! ### Samples read back -/

/-- The samples of a table that never was full. -/
def samples : List Delay := (List.range s.ndelay).map fun k => s.delays (Fin.ofNat nDelay k)

theorem keptDelays_of_le (h : s.ndelay ≤ nDelay) : s.keptDelays = s.samples.filter fun d =>
    decide (0 ≤ d.ms) := by
  have hzero : s.ndelay - nDelay = 0 := Nat.sub_eq_zero_of_le h
  unfold keptDelays samples
  rw [min_eq_left h, hzero]
  simp only [Nat.zero_add]

/-- **The lines of the samples** are read in their order. -/
theorem samples_delayLines (D : List Delay) : ∀ t : St, t.ndelay + D.length ≤ nDelay →
    (∀ d ∈ D, 0 ≤ d.ms.toInt ∧ d.ms.toInt ≤ measureMs) →
    ∀ u, u = (D.map delayLine).foldl (loadLine C) t →
      u.ndelay = t.ndelay + D.length ∧ u.samples = t.samples ++ D ∧ u.rivals = t.rivals := by
  induction D with
  | nil =>
    rintro t - - u rfl
    exact ⟨rfl, (append_nil _).symm, rfl⟩
  | cons d D ih =>
    intro t hroom hrange u hu
    rw [length_cons] at hroom
    rw [map_cons, foldl_cons, loadLine_delayLine C t d (hrange d mem_cons_self)] at hu
    generalize hw : ({ t with
        delays := update t.delays (Fin.ofNat nDelay t.ndelay) d
        ndelay := t.ndelay + 1 } : St) = w at hu
    have hcount : w.ndelay = t.ndelay + 1 := by rw [← hw]
    have hrivals : w.rivals = t.rivals := by rw [← hw]
    have hsamples : w.samples = t.samples ++ [d] := by
      rw [← hw]
      unfold samples
      dsimp only
      rw [range_succ, map_append, map_singleton, update_self]
      refine congrArg (· ++ [d]) (map_congr_left fun k hk => ?_)
      have hkn : k < t.ndelay := mem_range.mp hk
      refine update_of_ne ?_ _ _
      intro h
      have hval : k % nDelay = t.ndelay % nDelay := congrArg Fin.val h
      rw [Nat.mod_eq_of_lt (by omega), Nat.mod_eq_of_lt (by omega)] at hval
      omega
    obtain ⟨hn, hs, hr⟩ := ih w (by omega) (fun e he => hrange e (mem_cons_of_mem d he)) u hu
    refine ⟨?_, ?_, hr.trans hrivals⟩
    · rw [hn, hcount, length_cons]
      omega
    · rw [hs, hsamples, append_assoc, singleton_append]

/-! ### The whole file -/

/-- The lines before the samples speak of no table. -/
theorem tables_netLine (t : St) : (loadLine C t s.netLine).tables = t.tables := by
  obtain ⟨ha, hj, hr⟩ := s.literal_netLine
  unfold loadLine loadText
  rw [s.isLine_netLine.takeWhile, scanNet_netLine]
  simp only [scanInt, scanCtr, ha, hj, hr, Option.bind_eq_bind, Option.bind_none,
    Option.orElse_none]
  split
  · exact t.tables_loadNet C _ _
  · rfl

/-- The lines before the samples. -/
def headLines : List Bytes := [s.arbitrateLine, s.ctrLine] ++ if s.inNet then [s.netLine] else []

theorem tables_headLines (t : St) : (s.headLines.foldl (loadLine C) t).tables = t.tables := by
  unfold headLines
  rw [foldl_append, foldl_cons, foldl_cons, foldl_nil, loadLine_arbitrateLine,
    loadLine_ctrLine]
  split
  · exact s.tables_netLine C _
  · rfl

/-- **What a start reads of the tables**: the samples kept, and the rounds of each rival while they
fit. -/
theorem observed_load (hs : Tidy s.rivals ∧ Sampled s) (b : Boot) :
    let t := load C (boot b) s.stateText
    Tidy t.rivals ∧ t.keptDelays = s.keptDelays ∧
    ∀ id, t.observed id = (s.observed id).takeWhile fits := by
  intro t
  have hlines : s.stateLines = s.headLines ++ s.keptDelays.map delayLine ++
      (((finRange nPeer).map s.rivals).filter fun v => v.n != 0).map obsLine := rfl
  have ht : t = (((((finRange nPeer).map s.rivals).filter fun v => v.n != 0).map obsLine).foldl
      (loadLine C) ((s.keptDelays.map delayLine).foldl (loadLine C)
        (s.headLines.foldl (loadLine C) (boot b)))) := by
    show load C (boot b) s.stateText = _
    unfold load
    rw [lines_stateText, hlines, foldl_append, foldl_append]
  -- the lines of the head leave both tables empty
  have hhead := s.tables_headLines C (boot b)
  generalize s.headLines.foldl (loadLine C) (boot b) = w at ht hhead
  have hwrivals : w.rivals = fun _ => {} := congrArg (·.1) hhead
  have hwcount : w.ndelay = 0 := congrArg (·.2.2) hhead
  have hsize : s.keptDelays.length ≤ nDelay := by
    unfold keptDelays
    refine (length_filter_le _ _).trans ?_
    rw [length_map, length_range]
    exact min_le_right _ _
  have hkept : ∀ d ∈ s.keptDelays, 0 ≤ d.ms := fun d hd => decide_eq_true_eq.mp (mem_filter.mp hd).2
  -- a sample that is kept was measured, so it is in range
  have hrange : ∀ d ∈ s.keptDelays, 0 ≤ d.ms.toInt ∧ d.ms.toInt ≤ measureMs := by
    intro d hd
    have hpos : 0 ≤ d.ms.toInt := Int32.le_iff_toInt_le.mp (hkept d hd)
    obtain ⟨k, -, rfl⟩ := mem_map.mp (mem_filter.mp hd).1
    rcases hs.2 (Fin.ofNat nDelay (s.ndelay - nDelay + k)) with hms | hms
    · rw [hms] at hpos
      exact absurd hpos (by decide)
    · exact hms
  obtain ⟨hcount, hsamples, hrivals⟩ := samples_delayLines C s.keptDelays w (by omega) hrange _ rfl
  generalize (s.keptDelays.map delayLine).foldl (loadLine C) w = x at ht hcount hsamples hrivals
  have hdelays := delays_obsLines C (((finRange nPeer).map s.rivals).filter fun v => v.n != 0) x
  have hxr : x.rivals = fun _ => {} := hrivals.trans hwrivals
  have hmem : ∀ v, v ∈ ((finRange nPeer).map s.rivals).filter (fun v => v.n != 0) ↔
      ∃ i, (s.rivals i).n ≠ 0 ∧ s.rivals i = v := by
    intro v
    rw [mem_filter, mem_map, bne_iff_ne]
    constructor
    · rintro ⟨⟨i, -, rfl⟩, hn⟩
      exact ⟨i, hn, rfl⟩
    · rintro ⟨i, hn, rfl⟩
      exact ⟨⟨i, mem_finRange i, rfl⟩, hn⟩
  have hids : ((((finRange nPeer).map s.rivals).filter fun v => v.n != 0).map (·.id)).Nodup := by
    rw [filter_map, map_map]
    refine List.Nodup.map_on ?_ ((nodup_finRange nPeer).filter _)
    intro i hi j hj hid
    have hi := (mem_filter.mp hi).2
    have hj := (mem_filter.mp hj).2
    simp only [comp_apply, bne_iff_ne] at hi hj
    exact hs.1.distinct i j hi hj hid
  have hroom : 0 + (((finRange nPeer).map s.rivals).filter fun v => v.n != 0).length ≤ nPeer := by
    rw [Nat.zero_add]
    refine (length_filter_le _ _).trans ?_
    rw [length_map, length_finRange]
  have hnone : ∀ id, ¬ x.Knows id := by
    rintro id ⟨i, hi, -⟩
    rw [hxr] at hi
    exact hi rfl
  -- each rival has its line, and no two lines are of one
  obtain ⟨htidy, hall, hrest⟩ :=
    filling_obsLines C _ x 0 (by rw [hxr]; exact filling_empty) hroom hids
    (fun v _ => hnone v.id) t ht
  rw [← ht] at hdelays
  obtain ⟨htd, htn⟩ := Prod.mk.inj hdelays
  refine ⟨htidy, ?_, fun id => ?_⟩
  · have hle : t.ndelay ≤ nDelay := by rw [htn, hcount, hwcount]; omega
    have hts : t.samples = s.keptDelays := by
      have hws : w.samples = [] := by
        unfold samples
        rw [hwcount]
        rfl
      have hx : t.samples = x.samples := by
        unfold samples
        rw [htn, htd]
      rw [hx, hsamples, hws, nil_append]
    rw [t.keptDelays_of_le hle, hts, filter_eq_self]
    exact fun d hd => decide_eq_true (hkept d hd)
  · by_cases hknows : s.Knows id
    · obtain ⟨i, hn, rfl⟩ := hknows
      rw [hall (s.rivals i) ((hmem _).mpr ⟨i, hn, rfl⟩), observed_of hs.1 hn]
    · rw [s.observed_of_not_knows hknows, hrest id ?_, x.observed_of_not_knows (hnone id)]
      · rfl
      · intro hid
        obtain ⟨v, hv, hvid⟩ := mem_map.mp hid
        obtain ⟨i, hn, hi⟩ := (hmem v).mp hv
        exact hknows ⟨i, hn, by rw [hi]; exact hvid⟩

end St

/-! ### Restarts -/

/-- **What is found again**: whether the Echo arbitrates, the bound of its counter, its network, the
samples that were not withdrawn and the rounds of every rival, both in their order. -/
structure Restores (s t : St) : Prop where
  arbitrate : t.arbitrate = s.arbitrate
  ctrSaved : t.ctrSaved = s.ctrSaved
  inNet : t.inNet = s.inNet
  network : s.inNet = true → t.netId = s.netId ∧ t.netKey = s.netKey
  delays : t.keptDelays = s.keptDelays
  observed : ∀ id, t.observed id = s.observed id

/-- **Two states wait alike**, with the same members and the same round. -/
def WaitAlike (s t : St) : Prop :=
  ∀ (peers : Fin nPeer → Peer) (round : Round),
    let u : St := { t with pace := s.pace, rivalsOn := s.rivalsOn, peers := peers, round := round }
    let v : St := { s with peers := peers, round := round }
    (∀ now, u.learned now = v.learned now) ∧
    ∀ id score, u.rivalWaits id score = v.rivalWaits id score

theorem Restores.waitAlike {s t : St} (h : Restores s t) (hs : Tidy s.rivals) (ht : Tidy t.rivals) :
    WaitAlike s t := by
  intro peers round u v
  refine ⟨fun now => ?_, fun id score => ?_⟩
  · exact St.learned_of_kept (s := v) (t := u) rfl rfl rfl h.delays now
  · exact St.rivalWaits_of_observed (s := v) (t := u) hs ht rfl (h.observed id) score

/-- The rounds of a list all fit if it is read back whole. -/
theorem fits_of_takeWhile {L : List Obs} (h : L.takeWhile St.fits = L) :
    ∀ o ∈ L, St.fits o = true :=
  takeWhile_eq_self_iff.mp h

/-- **When a restart finds everything again**: the network has a number, and no score of ours among
the rounds kept is out of the range that is read.  Then the window and the rivals waited for are as
before. -/
theorem restores_iff (C : Crypto) (b b' : Boot) (l : List Ev) :
    let s := (start C b).run C l
    let t := loaded C { b' with arbitration := some s.stateText }
    Restores s t ∧ WaitAlike s t ↔ s.Numbered ∧ ∀ id, ∀ o ∈ s.observed id, St.fits o = true := by
  intro s t
  have hs := tidy_run C b l
  have ht : t = (boot b').load C s.stateText := rfl
  obtain ⟨htidy, hdelays, hobserved⟩ := s.observed_load C hs b'
  rw [← ht] at htidy hdelays hobserved
  constructor
  · rintro ⟨h, -⟩
    refine ⟨fun hin hzero => ?_, fun id => ?_⟩
    · -- what a file names has a number
      have hnumbered : t.Numbered :=
        St.numbered_load C (boot b') _ fun hin => absurd hin Bool.false_ne_true
      refine hnumbered (h.inNet.trans hin) ?_
      rw [(h.network hin).1, hzero]
    · have hid := h.observed id
      rw [hobserved id] at hid
      exact fits_of_takeWhile hid
  · rintro ⟨hnumbered, hfits⟩
    have hkept := s.load_stateText C (boot b') hnumbered
    rw [← ht] at hkept
    have hrestores : Restores s t := by
      refine ⟨congrArg St.Kept.arbitrate hkept, congrArg St.Kept.ctrSaved hkept, ?_,
        fun hin => ⟨?_, ?_⟩, hdelays, fun id => ?_⟩
      · have hin := congrArg St.Kept.inNet hkept
        exact hin.trans (Bool.or_false s.inNet)
      · exact (congrArg St.Kept.netId hkept).trans (if_pos hin)
      · exact (congrArg St.Kept.netKey hkept).trans (if_pos hin)
      · rw [hobserved id]
        exact takeWhile_eq_self_iff.mpr (hfits id)
    exact ⟨hrestores, hrestores.waitAlike hs.1 htidy⟩

/-- While an Echo that is in no network pairs, anyone gives it the key of the network `0`. -/
def zeroRun : List Ev :=
  [.pair ⟨2, by decide⟩, .packet (sealedNine 1 0) ⟨3, by decide⟩ 0 (.zero 24)]

/-- **A network `0` is not found again.** -/
theorem restores_zero :
    ¬ Restores ((start .clear (.plain 1)).run .clear zeroRun)
      (loaded .clear { Boot.plain 1 with
        arbitration := some ((start .clear (.plain 1)).run .clear zeroRun).stateText }) := by
  intro h
  have hin : ((start .clear (.plain 1)).run .clear zeroRun).inNet = true := by decide
  have hzero : ((start .clear (.plain 1)).run .clear zeroRun).netId = 0 := by decide
  have hnumbered : (loaded .clear { Boot.plain 1 with
      arbitration := some ((start .clear (.plain 1)).run .clear zeroRun).stateText }).Numbered :=
    St.numbered_load .clear (boot (.plain 1)) _ fun hin => absurd hin Bool.false_ne_true
  exact hnumbered (h.inNet.trans hin) ((h.network hin).1.trans hzero)

end Hassmic.Arb
