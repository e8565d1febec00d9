import Hassmic.Lib.Runs
import Hassmic.Arb.Moves

/-!
# The learned window

How long a round waits is learned from how late the claims of the members came: the 95th percentile
of all samples and of each member's own, with a margin, between two bounds.  A sample is counted for
one member only, since no two entries in use of the table of peers have the same id.

## Main definitions

* `Distinct` — no member has two entries.
* `Covers` — a window is as long as 95 of 100 samples, and the margin.

## Main results

* `distinct_run` — no member has two entries in any run.
* `countP_p95` — at least 95 of 100 samples are no larger than their percentile.
* `learned_sound` — **the learned window is within its bounds and covers the samples**.
-/

namespace Hassmic.Arb

open List Function

/-! ### No member has two entries -/

/-- **No member has two entries** in the table of peers. -/
def Distinct (s : St) : Prop := ∀ i j, Used s i → Used s j → (s.peers i).id = (s.peers j).id → i = j

section

variable {C : Crypto} {s t : St}

theorem distinct_still (h : Still C s t) (hs : Distinct s) : Distinct t := by
  have hused : ∀ i, Used t i → Used s i := by
    intro i hi
    unfold Used at hi ⊢
    rwa [(h.peers i).2.2] at hi
  intro i j hi hj hid
  rw [(h.peers i).1, (h.peers j).1] at hid
  exact hs i j (hused i hi) (hused j hj) hid

/-- An entry that is replaced by one for a member without an entry. -/
theorem distinct_update (hs : Distinct s) (i : Fin nPeer) (q : Peer)
    (hnew : ∀ j, j ≠ i → Used s j → (s.peers j).id ≠ q.id)
    (hpeers : t.peers = update s.peers i q) : Distinct t := by
  have hself : t.peers i = q := by rw [hpeers, update_self]
  have hother : ∀ j, j ≠ i → t.peers j = s.peers j := fun j hj => by
    rw [hpeers, update_of_ne hj]
  have hused : ∀ j, j ≠ i → Used t j → Used s j := by
    intro j hj hu
    unfold Used at hu ⊢
    rwa [hother j hj] at hu
  intro j k hj hk hid
  by_cases hji : j = i
  · by_cases hki : k = i
    · rw [hji, hki]
    · rw [hji, hself, hother k hki] at hid
      exact absurd hid.symm (hnew k hki (hused k hki hk))
  · by_cases hki : k = i
    · rw [hki, hself, hother j hji] at hid
      exact absurd hid (hnew j hji (hused j hji hj))
    · rw [hother j hji, hother k hki] at hid
      exact hs j k (hused j hji hj) (hused k hki hk) hid

/-- An entry that is set to what says "never". -/
theorem distinct_clear (hs : Distinct s) (i : Fin nPeer)
    (hpeers : t.peers = update s.peers i {}) : Distinct t := by
  have hne : ∀ j, Used t j → j ≠ i := by
    rintro j hj rfl
    exact hj (by rw [hpeers, update_self])
  intro j k hj hk hid
  have hused : ∀ j, Used t j → Used s j := by
    intro j hj
    have hji := hne j hj
    unfold Used at hj ⊢
    rwa [hpeers, update_of_ne hji] at hj
  rw [hpeers, update_of_ne (hne j hj), update_of_ne (hne k hk)] at hid
  exact hs j k (hused j hj) (hused k hk) hid

theorem distinct_fresh (hs : Distinct s) (id : Blob 8) (c : UInt64) (now : ℤ) :
    Distinct (s.fresh id c now).2 := by
  rcases hit_or_miss s id with hhit | hmiss
  · obtain ⟨hused, hheld⟩ := holds_iff.mp hhit
    rw [fresh_hit hhit]
    split
    · exact fun i j hi hj hid => hs i j hi hj hid
    · refine distinct_update hs (s.peerSlot id) _ (fun j hj hu heq => ?_) rfl
      exact hj (hs j _ hu hused heq)
  · rw [fresh_miss hmiss]
    split
    · exact distinct_clear hs (s.peerSlot id) rfl
    · exact distinct_update hs (s.peerSlot id) _ (fun j _ hu => ne_of_miss hmiss hu) rfl

theorem distinct_moves {Z : Prop} (h : Moves C Z s t) (hs : Distinct s) : Distinct t := by
  cases h with
  | still h => exact distinct_still h hs
  | fresh id c now => exact distinct_fresh hs id c now.1
  | adopt k id now hlow hzero => exact fun i _ hi => absurd rfl hi

theorem distinct_reaches {Z : Prop} (h : Reaches C Z s t) (hs : Distinct s) : Distinct t := by
  induction h with
  | refl => exact hs
  | tail _ hstep ih => exact distinct_moves hstep ih

end

/-- **No member has two entries in any run.** -/
theorem distinct_run (C : Crypto) (b : Boot) (l : List Ev) : Distinct ((start C b).run C l) := by
  refine Runs.invariant_all (I := Distinct) (fun s e h =>
    distinct_reaches (s.step_reaches C e) h) ?_ l
  intro i _ hi
  unfold Used at hi
  rw [start_peers] at hi
  exact absurd rfl hi

/-! ### The percentile -/

/-- At least 95 of 100 samples are no larger than their percentile. -/
theorem countP_p95 {v : List ℤ} (hne : v ≠ []) : 95 * v.length ≤ 100 * v.countP (· ≤ St.p95 v) := by
  set w := v.mergeSort (· ≤ ·) with hw
  set k := (v.length * 95 + 99) / 100 with hk
  have hpos : 0 < v.length := length_pos_iff.mpr hne
  have hlength : w.length = v.length := length_mergeSort v
  have hsorted : w.Pairwise (· ≤ ·) := pairwise_mergeSort' (· ≤ ·) v
  have hlt : k - 1 < w.length := by omega
  have hp95 : St.p95 v = w[k - 1] := getD_eq_getElem _ _ hlt
  -- the first `k` of them in their order are no larger
  have htake : ∀ x ∈ w.take k, x ≤ St.p95 v := by
    intro x hx
    obtain ⟨i, hi, rfl⟩ := mem_take_iff_getElem.mp hx
    rw [hp95]
    rcases Nat.lt_or_ge i (k - 1) with hlt' | hge
    · exact pairwise_iff_getElem.mp hsorted _ _ (by omega) hlt hlt'
    · obtain rfl : i = k - 1 := by omega
      exact le_rfl
  have hcount : k ≤ v.countP (· ≤ St.p95 v) := by
    calc k = (w.take k).length := by rw [length_take]; omega
      _ = (w.take k).countP (· ≤ St.p95 v) := (countP_eq_length.mpr (by simpa using htake)).symm
      _ ≤ w.countP (· ≤ St.p95 v) := (take_sublist k w).countP_le
      _ = v.countP (· ≤ St.p95 v) := (mergeSort_perm v _).countP_eq _
  omega

/-- **A window covers samples**: 95 of 100 of them are no larger than it is without the margin. -/
def Covers (v : List ℤ) (w : ℤ) : Prop := 95 * v.length ≤ 100 * v.countP (· ≤ w - autoMarginMs)

/-- A window covers the samples whose percentile it is as long as, with the margin. -/
theorem covers_of_p95 {v : List ℤ} (hne : v ≠ []) {w : ℤ} (h : St.p95 v + autoMarginMs ≤ w) :
    Covers v w := by
  have hmono : v.countP (· ≤ St.p95 v) ≤ v.countP (· ≤ w - autoMarginMs) := by
    refine countP_mono_left fun x _ hx => ?_
    rw [decide_eq_true_eq] at hx ⊢
    omega
  exact (countP_p95 hne).trans (Nat.mul_le_mul_left 100 hmono)

/-! ### The samples -/

namespace St

variable (s : St) (now : ℤ)

/-- The slots of a member's samples. -/
def sampleSlots (p : Peer) : List (Fin nDelay) :=
  (finRange nDelay).filter fun j =>
    decide (j.1 < s.ndelay) && decide (0 ≤ (s.delays j).ms) && (s.delays j).id == p.id

theorem samplesOf_eq (p : Peer) : s.samplesOf p = (s.sampleSlots p).map fun j =>
    (s.delays j).ms.toInt := rfl

/-- The entries of the members waited for. -/
def waitedFor : List (Fin nPeer) := (finRange nPeer).filter fun i => s.waited (s.peers i) now

theorem used_of_waited {i : Fin nPeer} (h : s.waited (s.peers i) now = true) : Used s i := by
  unfold waited at h
  split at h
  · cases h
  · next hago =>
    intro hseen
    rw [hseen] at hago
    exact hago rfl

/-- What `gather` brings together. -/
theorem gather_spec :
    (s.gather now).1 = (s.waitedFor now).flatMap (fun i => s.samplesOf (s.peers i)) ∧
      ∀ i ∈ s.waitedFor now, autoPeerMin ≤ (s.samplesOf (s.peers i)).length →
        p95 (s.samplesOf (s.peers i)) + autoMarginMs ≤ (s.gather now).2 := by
  unfold gather waitedFor
  suffices h : ∀ (l : List (Fin nPeer)) (r : List ℤ × ℤ),
      let o := l.foldl
        (fun r i =>
          let p := s.peers i
          if s.waited p now then
            let mine := s.samplesOf p
            (r.1 ++ mine,
              if autoPeerMin ≤ mine.length then max r.2 (p95 mine + autoMarginMs) else r.2)
          else r) r
      o.1 = r.1 ++ (l.filter fun i => s.waited (s.peers i) now).flatMap
      (fun i => s.samplesOf (s.peers i)) ∧
        r.2 ≤ o.2 ∧ ∀ i ∈ l.filter fun i => s.waited (s.peers i) now,
          autoPeerMin ≤ (s.samplesOf (s.peers i)).length →
            p95 (s.samplesOf (s.peers i)) + autoMarginMs ≤ o.2 by
    obtain ⟨hall, -, hown⟩ := h (finRange nPeer) ([], 0)
    exact ⟨hall, hown⟩
  intro l
  induction l with
  | nil =>
    intro r
    exact ⟨(append_nil _).symm, le_rfl, fun i hi => absurd hi not_mem_nil⟩
  | cons i l ih =>
    intro r
    by_cases hi : s.waited (s.peers i) now = true
    · obtain ⟨hall, hle, hown⟩ := ih (r.1 ++ s.samplesOf (s.peers i),
        if autoPeerMin ≤ (s.samplesOf (s.peers i)).length then
          max r.2 (p95 (s.samplesOf (s.peers i)) + autoMarginMs) else r.2)
      simp only [foldl_cons, hi, if_true, filter_cons_of_pos]
      refine ⟨?_, ?_, ?_⟩
      · rw [hall, flatMap_cons, append_assoc]
      · refine le_trans ?_ hle
        split
        · exact le_max_left _ _
        · exact le_rfl
      · intro j hj hmin
        rcases mem_cons.mp hj with rfl | hj
        · refine le_trans ?_ hle
          rw [if_pos hmin]
          exact le_max_right _ _
        · exact hown j hj hmin
    · obtain ⟨hall, hle, hown⟩ := ih r
      simp only [foldl_cons, hi, Bool.false_eq_true, if_false, filter_cons_of_neg,
        not_false_eq_true]
      exact ⟨hall, hle, hown⟩

/-- **Every sample is counted for one member at most.** -/
theorem length_gather_le (h : Distinct s) : (s.gather now).1.length ≤ nDelay := by
  have hslots : ((s.waitedFor now).flatMap fun i => s.sampleSlots (s.peers i)).Nodup := by
    rw [nodup_flatMap]
    refine ⟨fun i _ => (nodup_finRange nDelay).filter _, ?_⟩
    have hnodup : (s.waitedFor now).Nodup := (nodup_finRange nPeer).filter _
    refine List.Pairwise.imp_of_mem ?_ hnodup
    intro i j hi hj hij
    refine disjoint_left.mpr fun k hk hk' => hij ?_
    have hid : (s.delays k).id = (s.peers i).id := by
      have hk := (mem_filter.mp hk).2
      simp only [Bool.and_eq_true, beq_iff_eq] at hk
      exact hk.2
    have hid' : (s.delays k).id = (s.peers j).id := by
      have hk' := (mem_filter.mp hk').2
      simp only [Bool.and_eq_true, beq_iff_eq] at hk'
      exact hk'.2
    exact h i j (s.used_of_waited now (mem_filter.mp hi).2)
      (s.used_of_waited now (mem_filter.mp hj).2) (hid.symm.trans hid')
  have hlength : (s.gather now).1.length =
      ((s.waitedFor now).flatMap fun i => s.sampleSlots (s.peers i)).length := by
    rw [(s.gather_spec now).1, length_flatMap, length_flatMap]
    simp only [samplesOf_eq, length_map]
  rw [hlength]
  exact (hslots.length_le_card).trans_eq (Fintype.card_fin nDelay)

/-- The window is within its bounds. -/
theorem learned_bounds : autoMinMs ≤ (s.learned now).1 ∧ (s.learned now).1 ≤ autoMaxMs := by
  have hbounds : (autoMinMs : ℤ) = 150 ∧ (autoMaxMs : ℤ) = 1000 := ⟨rfl, rfl⟩
  unfold learned
  dsimp only
  generalize (if (s.gather now).1.length < autoLearn then max (s.gather now).2 autoStartMs
    else max (s.gather now).2 ((if (s.gather now).1 = [] then -1 else p95 (s.gather now).1) +
      autoMarginMs)) = w
  split
  · omega
  · split
    · omega
    · omega

/-- A window that is not cut off at its upper bound covers what it was learned from. -/
theorem covers_learned (hlearn : autoLearn ≤ (s.learned now).2.1)
    (hmax : (s.learned now).1 ≠ autoMaxMs) :
    Covers (s.gather now).1 (s.learned now).1 ∧ ∀ i ∈ s.waitedFor now,
      autoPeerMin ≤ (s.samplesOf (s.peers i)).length →
        Covers (s.samplesOf (s.peers i)) (s.learned now).1 := by
  have hcount : autoLearn ≤ (s.gather now).1.length := hlearn
  have hne : (s.gather now).1 ≠ [] := by
    intro hnil
    rw [hnil] at hcount
    exact absurd hcount (by decide)
  have hle : max (s.gather now).2 (p95 (s.gather now).1 + autoMarginMs) ≤ (s.learned now).1 := by
    revert hmax
    unfold learned
    dsimp only
    rw [if_neg hne, if_neg (not_lt.mpr hcount)]
    intro hmax
    split
    · next hmin => exact hmin.le
    · next hmin =>
      rw [if_neg hmin] at hmax
      split
      · next hbig =>
        rw [if_pos hbig] at hmax
        exact absurd rfl hmax
      · exact le_rfl
  refine ⟨covers_of_p95 hne ((le_max_right _ _).trans hle), fun i hi hmin => ?_⟩
  have hown := (s.gather_spec now).2 i hi hmin
  refine covers_of_p95 ?_ (hown.trans ((le_max_left _ _).trans hle))
  intro hnil
  rw [hnil] at hmin
  exact absurd hmin (by decide)

end St

/-- **The learned window is sound**: whatever the round and the samples are, no more samples come
together than there are slots, the window is within its bounds, and with enough samples it covers
them all and those of every member that has some, unless it is cut off at its upper bound. -/
theorem learned_sound (C : Crypto) (b : Boot) (l : List Ev) (round : Round)
    (delays : Fin nDelay → Delay) (ndelay : ℕ) (now : ℤ) :
    let s : St := { (start C b).run C l with round := round, delays := delays, ndelay := ndelay }
    (s.gather now).1.length ≤ nDelay ∧ autoMinMs ≤ (s.learned now).1 ∧
    (s.learned now).1 ≤ autoMaxMs ∧
      (autoLearn ≤ (s.learned now).2.1 → (s.learned now).1 = autoMaxMs ∨
        Covers (s.gather now).1 (s.learned now).1 ∧
          ∀ i, s.waited (s.peers i) now → autoPeerMin ≤ (s.samplesOf (s.peers i)).length →
            Covers (s.samplesOf (s.peers i)) (s.learned now).1) := by
  intro s
  have hdistinct : Distinct s := fun i j hi hj hid => distinct_run C b l i j hi hj hid
  refine ⟨s.length_gather_le now hdistinct, (s.learned_bounds now).1, (s.learned_bounds now).2,
    fun hlearn => ?_⟩
  by_cases hmax : (s.learned now).1 = autoMaxMs
  · exact .inl hmax
  · obtain ⟨hall, hown⟩ := s.covers_learned now hlearn hmax
    refine .inr ⟨hall, fun i hi hmin => hown i ?_ hmin⟩
    exact mem_filter.mpr ⟨mem_finRange i, hi⟩

end Hassmic.Arb
