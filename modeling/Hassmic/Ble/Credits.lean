import Hassmic.Ble.Apart
import Hassmic.Lib.Slots

/-!
# Credits for the controller

A packet that is written takes a credit, and it comes back in one of two ways: the controller
reports the packet complete, or the link ends and the controller forgets it.  `free_conn` counts on
the second; but a connection that was closed and never confirmed is freed as well, and its link is
still up.

## Main definitions

* `Balanced` — the credits are conserved, and what is counted is what the controller holds.
* `Confirmed` — no connection with packets in the controller is forgotten.

## Main results

* `balanced_step` — each such step keeps the balance.
* `credits_conserved` — every run in which that is so.
* `credits_minted` — a run in which it is not.
-/

namespace Hassmic.Ble

open Function List

variable {w : Links} {i : Slot}

/-- Packets that were written and not reported, over all connections. -/
def Links.unacked (w : Links) : ℤ := ∑ i, (w.conns i).unacked

/-- The credits are conserved, and the packets of a link that are counted are those that the
controller holds. -/
structure Balanced (w : Links) : Prop where
  sum : w.credits + w.unacked = w.aclNum
  credits : 0 ≤ w.credits
  holds : ∀ {i}, w.linked i → (w.conns i).unacked = w.held (w.conns i).handle
  idle : ∀ {h}, (∀ i, w.linked i → (w.conns i).handle ≠ h) → w.held h = 0

/-! ### What follows from the balance -/

theorem Balanced.unacked_nonneg (hb : Balanced w) (ht : Tidy w) (i : Slot) :
    0 ≤ (w.conns i).unacked := by
  by_cases hi : w.linked i
  · rw [hb.holds hi]
    exact Int.natCast_nonneg _
  · rw [(ht.blank hi).2]

/-- What is counted for one connection is not more than what is out. -/
theorem Balanced.unacked_le (hb : Balanced w) (ht : Tidy w) (i : Slot) :
    w.credits + (w.conns i).unacked ≤ w.aclNum := by
  have hone : (w.conns i).unacked ≤ w.unacked :=
    Finset.single_le_sum (f := fun j => (w.conns j).unacked)
      (fun j _ => hb.unacked_nonneg ht j) (Finset.mem_univ i)
  have hsum := hb.sum
  omega

/-- All that the controller holds is counted. -/
theorem Balanced.held_eq (hb : Balanced w) (ht : Tidy w) :
    ((∑ h ∈ w.links.toFinset, w.held h : ℕ) : ℤ) = w.unacked := by
  let up : Finset Slot := Finset.univ.filter fun i => w.linked i
  have hinj : Set.InjOn (fun i => (w.conns i).handle) up := by
    intro j hj k hk heq
    exact ht.apart (by simpa [up] using hj) (by simpa [up] using hk) heq
  have hsub : up.image (fun i => (w.conns i).handle) ⊆ w.links.toFinset := by
    intro h hh
    obtain ⟨j, hj, rfl⟩ := Finset.mem_image.mp hh
    exact mem_toFinset.mpr (ht.known (by simpa [up] using hj))
  -- a link that is not ours holds nothing
  have hidle : ∀ h ∈ w.links.toFinset, h ∉ up.image (fun i => (w.conns i).handle) →
      w.held h = 0 := by
    intro h _ hnot
    refine hb.idle fun j hj heq => hnot ?_
    exact Finset.mem_image.mpr ⟨j, by simpa [up] using hj, heq⟩
  rw [← Finset.sum_subset hsub hidle, Finset.sum_image hinj, Nat.cast_sum]
  calc ∑ j ∈ up, (w.held (w.conns j).handle : ℤ)
      = ∑ j ∈ up, (w.conns j).unacked :=
        Finset.sum_congr rfl fun j hj => (hb.holds (by simpa [up] using hj)).symm
    _ = w.unacked := by
        refine Finset.sum_subset (Finset.subset_univ up) fun j _ hj => ?_
        exact (ht.blank (by simpa [up] using hj)).2

/-! ### Each operation -/

theorem unacked_set (c : Conn) :
    (w.set i c).unacked = w.unacked - (w.conns i).unacked + c.unacked := by
  have hsum : (w.set i c).unacked + (w.conns i).unacked = w.unacked + c.unacked :=
    Slots.sum_update w.conns Conn.unacked i c
  omega

/-- A connection changes, but neither its link, its handle nor its packets. -/
theorem Balanced.set {c : Conn} (hb : Balanced w) (hl : c.state.linked = (w.conns i).state.linked)
    (hh : c.handle = (w.conns i).handle) (hu : c.unacked = (w.conns i).unacked) :
    Balanced (w.set i c) := by
  have hlinked : ∀ j, (w.set i c).linked j ↔ w.linked j := by
    intro j
    by_cases hij : j = i
    · subst hij
      rw [linked_set_self, hl]
      rfl
    · exact linked_set_ne hij
  have hconn : ∀ j, ((w.set i c).conns j).handle = (w.conns j).handle ∧
      ((w.set i c).conns j).unacked = (w.conns j).unacked := by
    intro j
    by_cases hij : j = i
    · subst hij
      rw [conns_set_self]
      exact ⟨hh, hu⟩
    · rw [conns_set_ne hij]
      exact ⟨rfl, rfl⟩
  refine ⟨?_, hb.credits, fun {j} hj => ?_, fun {h} hnone => hb.idle fun j hj => ?_⟩
  · rw [unacked_set, hu, sub_add_cancel]
    exact hb.sum
  · rw [(hconn j).1, (hconn j).2]
    exact hb.holds ((hlinked j).mp hj)
  · rw [← (hconn j).1]
    exact hnone j ((hlinked j).mpr hj)

/-- Packets of one link move between the controller and the credits. -/
theorem Balanced.moved {v : Links} (hb : Balanced w) (hi : w.linked i)
    (hapart : ∀ j, w.linked j → (w.conns j).handle = (w.conns i).handle → j = i) {n : ℕ}
    (hconns : v.conns = update w.conns i { w.conns i with unacked := n })
    (hheld : v.held = update w.held (w.conns i).handle n) (hnum : v.aclNum = w.aclNum)
    (hcredits : v.credits + n = w.credits + (w.conns i).unacked) (hpos : 0 ≤ v.credits) :
    Balanced v := by
  have hself : v.conns i = { w.conns i with unacked := n } := by
    rw [hconns, update_self]
  have hother : ∀ {j}, j ≠ i → v.conns j = w.conns j := fun hji => by
    rw [hconns, update_of_ne hji]
  have hhandle : ∀ j, (v.conns j).handle = (w.conns j).handle := by
    intro j
    by_cases hji : j = i
    · rw [hji, hself]
    · rw [hother hji]
  have hlinked : ∀ j, v.linked j ↔ w.linked j := by
    intro j
    unfold Links.linked
    by_cases hji : j = i
    · rw [hji, hself]
    · rw [hother hji]
  refine ⟨?_, hpos, fun {j} hj => ?_, fun {h} hnone => ?_⟩
  · have hunacked : v.unacked = w.unacked - (w.conns i).unacked + n := by
      rw [← unacked_set { w.conns i with unacked := n }]
      unfold Links.unacked
      rw [hconns]
      rfl
    have hsum := hb.sum
    rw [hunacked, hnum]
    omega
  · rw [hlinked] at hj
    rw [hhandle, hheld]
    by_cases hji : j = i
    · subst hji
      rw [hself, update_self]
    · have hne : (w.conns j).handle ≠ (w.conns i).handle := fun heq => hji (hapart j hj heq)
      rw [hother hji, update_of_ne hne]
      exact hb.holds hj
  · have hne : h ≠ (w.conns i).handle := by
      rintro rfl
      exact hnone i ((hlinked i).mpr hi) (hhandle i)
    rw [hheld, update_of_ne hne]
    refine hb.idle fun j hj => ?_
    rw [← hhandle j]
    exact hnone j ((hlinked j).mpr hj)

/-- A packet is written: a credit for a packet that the controller holds. -/
theorem Balanced.wrote (hb : Balanced w) (hi : w.linked i)
    (hapart : ∀ j, w.linked j → (w.conns j).handle = (w.conns i).handle → j = i) {f : Frag}
    (hf : f.handle = (w.conns i).handle) (hcredits : 0 < w.credits) : Balanced (w.wrote i f) := by
  have hheld := hb.holds hi
  refine hb.moved (n := w.held f.handle + 1) hi hapart ?_ ?_ rfl ?_ ?_
  · show update w.conns i _ = update w.conns i _
    rw [hf, hheld, Nat.cast_succ]
  · show update w.held f.handle _ = _
    rw [hf]
  · show w.credits - 1 + _ = _
    rw [hf, hheld, Nat.cast_succ]
    omega
  · show 0 ≤ w.credits - 1
    omega

/-- Nothing that counts changes. -/
theorem Balanced.congr {v : Links} (hb : Balanced w) (hconns : v.conns = w.conns)
    (hcredits : v.credits = w.credits) (hnum : v.aclNum = w.aclNum) (hheld : v.held = w.held) :
    Balanced v := by
  have hlinked : ∀ j, v.linked j ↔ w.linked j := by
    intro j
    unfold Links.linked
    rw [hconns]
  refine ⟨?_, ?_, fun {j} hj => ?_, fun {h} hnone => ?_⟩
  · unfold Links.unacked
    rw [hconns, hcredits, hnum]
    exact hb.sum
  · rw [hcredits]
    exact hb.credits
  · rw [hconns, hheld]
    exact hb.holds ((hlinked j).mp hj)
  · rw [hheld]
    refine hb.idle fun j hj => ?_
    rw [← hconns]
    exact hnone j ((hlinked j).mpr hj)

theorem balanced_flush {q : List Frag} {ok : List Bool} (ht : Tidy { w with queue := q })
    (hb : Balanced w) : Balanced (Links.flush q ok w) := by
  induction q generalizing w ok with
  | nil => exact hb.congr rfl rfl rfl rfl
  | cons f q ih =>
    have hrest : Tidy { w with queue := q } := ht.fewer fun g hg => mem_cons_of_mem _ hg
    rw [Links.flush]
    split
    · next hcredits =>
      split
      · exact ih hrest hb
      · next j hj =>
        obtain ⟨hlinked, hhandle⟩ := linked_of_byHandle hj
        split
        · refine ih (hrest.wrote hlinked f) (hb.wrote hlinked ?_ hhandle.symm hcredits)
          exact fun k hk heq => ht.apart hk hlinked heq
        · exact ih hrest hb
    · exact hb.congr rfl rfl rfl rfl

/-- A connection ends of which the controller holds nothing. -/
theorem balanced_freeConn (hb : Balanced w) (hzero : (w.conns i).unacked = 0) :
    Balanced (w.freeConn i) := by
  have hconn : ∀ {j}, j ≠ i → (w.freeConn i).conns j = w.conns j := fun hji => conns_set_ne hji _
  refine ⟨?_, ?_, fun {j} hj => ?_, fun {h} hnone => ?_⟩
  · show w.credits + (w.conns i).unacked + (w.set i {}).unacked = w.aclNum
    rw [unacked_set, hzero]
    have hsum := hb.sum
    simp only
    omega
  · show 0 ≤ w.credits + (w.conns i).unacked
    rw [hzero, add_zero]
    exact hb.credits
  · obtain ⟨hji, hlinked⟩ := linked_freeConn.mp hj
    rw [hconn hji]
    exact hb.holds hlinked
  · show w.held h = 0
    by_cases hi : w.linked i ∧ (w.conns i).handle = h
    · have hheld := hb.holds hi.1
      rw [hzero, hi.2] at hheld
      exact_mod_cast hheld.symm
    · refine hb.idle fun j hj heq => ?_
      have hji : j ≠ i := by
        rintro rfl
        exact hi ⟨hj, heq⟩
      refine hnone j ((linked_set_ne hji).mpr hj) ?_
      rw [hconn hji]
      exact heq

/-- A link ends, and the controller forgets its packets. -/
theorem balanced_disconnected (ht : Tidy w) (hb : Balanced w) (h : ℕ) :
    Balanced (w.step (.disconnected h)) := by
  simp only [Links.step]
  cases hi : w.byHandle h with
  | none =>
    -- it held nothing of a link that is not ours
    refine hb.congr rfl rfl rfl ?_
    show update w.held h 0 = w.held
    exact update_eq_self_iff.mpr (hb.idle fun j hj => byHandle_none hi hj).symm
  | some i =>
    obtain ⟨hlinked, rfl⟩ := linked_of_byHandle hi
    have hsum := hb.sum
    have hcredits := hb.credits
    have hpos := hb.unacked_nonneg ht i
    refine ⟨?_, ?_, fun {j} hj => ?_, fun {k} hnone => ?_⟩
    · show w.credits + (w.conns i).unacked + (w.set i {}).unacked = w.aclNum
      rw [unacked_set]
      simp only
      omega
    · show 0 ≤ w.credits + (w.conns i).unacked
      omega
    · obtain ⟨hji, hj'⟩ : j ≠ i ∧ w.linked j := linked_freeConn.mp hj
      show (update w.conns i {} j).unacked
        = (update w.held _ 0 (update w.conns i {} j).handle : ℕ)
      have hne : (w.conns j).handle ≠ (w.conns i).handle := fun heq =>
        hji (ht.apart hj' hlinked heq)
      rw [update_of_ne hji, update_of_ne hne]
      exact hb.holds hj'
    · show update w.held (w.conns i).handle 0 k = 0
      by_cases hk : k = (w.conns i).handle
      · rw [hk, update_self]
      · rw [update_of_ne hk]
        refine hb.idle fun j hj heq => ?_
        have hji : j ≠ i := by
          rintro rfl
          exact hk heq.symm
        refine hnone j ((linked_set_ne hji).mpr hj) ?_
        show (update w.conns i {} j).handle = k
        rw [update_of_ne hji]
        exact heq

/-- A link comes up with nothing in the controller. -/
theorem balanced_linkUp (ht : Tidy w) (hb : Balanced w) (hi : ¬ w.linked i) {c : Conn}
    (hu : c.unacked = 0) {h : ℕ} (hfresh : h ∉ w.links) :
    Balanced (w.linkUp i c h) := by
  have hself : (w.linkUp i c h).conns i = { c with handle := h } := conns_set_self _
  have hother : ∀ {j}, j ≠ i → (w.linkUp i c h).conns j = w.conns j := fun hji => conns_set_ne hji _
  have hidle : w.held h = 0 := hb.idle fun j hj heq => hfresh (heq ▸ ht.known hj)
  refine ⟨?_, hb.credits, fun {j} hj => ?_, fun {k} hnone => ?_⟩
  · show w.credits + (w.set i _).unacked = w.aclNum
    rw [unacked_set, (ht.blank hi).2]
    have hsum := hb.sum
    simp only [hu]
    omega
  · show _ = (w.held _ : ℤ)
    by_cases hji : j = i
    · subst hji
      rw [hself]
      simp only [hu, hidle, Nat.cast_zero]
    · rw [hother hji]
      exact hb.holds ((linked_set_ne hji).mp hj)
  · refine hb.idle fun j hj heq => ?_
    have hji : j ≠ i := by
      rintro rfl
      exact hi hj
    refine hnone j ((linked_set_ne hji).mpr hj) ?_
    rw [hother hji]
    exact heq

/-- A report of packets that the controller holds: the clamps change nothing. -/
theorem balanced_complete (ht : Tidy w) (hb : Balanced w) {h k : ℕ} (hk : k ≤ w.held h) :
    Balanced (w.complete h k) := by
  unfold Links.complete
  simp only
  have hsame : ∀ j, Links.byHandle { w with
      credits := min (w.credits + k) w.aclNum
      held := update w.held h (w.held h - k) } j = w.byHandle j := fun _ => rfl
  rw [hsame]
  cases hi : w.byHandle h with
  | none =>
    -- a link that is not ours: nothing to report
    have hheld : w.held h = 0 := hb.idle fun j hj => byHandle_none hi hj
    obtain rfl : k = 0 := by omega
    have hle := hb.unacked_le ht 0
    have hpos := hb.unacked_nonneg ht 0
    refine hb.congr rfl ?_ rfl ?_
    · show min (w.credits + (0 : ℕ)) (w.aclNum : ℤ) = w.credits
      omega
    · show update w.held h (w.held h - 0) = w.held
      exact update_eq_self h w.held
  | some i =>
    obtain ⟨hlinked, rfl⟩ := linked_of_byHandle hi
    have hheld := hb.holds hlinked
    have hle := hb.unacked_le ht i
    have hcredits : min (w.credits + k) (w.aclNum : ℤ) = w.credits + k := by omega
    have hunacked : max 0 ((w.conns i).unacked - k) = (w.conns i).unacked - k := by omega
    refine hb.moved (n := w.held (w.conns i).handle - k) hlinked
      (fun j hj heq => ht.apart hj hlinked heq) ?_ rfl rfl ?_ ?_
    · show update w.conns i _ = update w.conns i _
      rw [hunacked]
      congr 2
      omega
    · show min (w.credits + k) (w.aclNum : ℤ) + _ = _
      rw [hcredits]
      omega
    · show 0 ≤ min (w.credits + k) (w.aclNum : ℤ)
      have hpos := hb.credits
      omega

/-! ### Each step -/

/-- No connection of which the controller holds packets is forgotten. -/
def Confirmed (w : Links) : Ev → Prop
  | .forget i => (w.conns i).state = .closing → (w.conns i).unacked = 0
  | _ => True

theorem balanced_setup (len num : ℕ) : Balanced (.setup len num) where
  sum := by simp [Links.unacked, Links.setup]
  credits := by
    show 0 ≤ if num = 0 then 1 else (num : ℤ)
    split
    · exact zero_le_one
    · exact Int.natCast_nonneg num
  holds := fun hj => absurd hj (by simp [Links.linked, Links.setup, CState.linked])
  idle := fun _ => rfl

/-- **Each step keeps the balance.** -/
theorem balanced_step (ht : Tidy w) (hb : Balanced w) {e : Ev} (hhonest : Honest w e)
    (hconfirmed : Confirmed w e) : Balanced (w.step e) := by
  have hmoves := moves_step ht e
  generalize w.step e = v at hmoves
  cases hmoves with
  | stays => exact hb
  | changes hl hh hu => exact hb.set hl hh hu
  | ends _ hgone =>
    rcases hgone with hnot | ⟨rfl, hclosing⟩
    · exact balanced_freeConn hb (ht.blank hnot).2
    · exact balanced_freeConn hb (hconfirmed hclosing)
  | comes he hi _ hu =>
    refine balanced_linkUp ht hb hi hu ?_
    rcases he with rfl | rfl
    · exact hhonest.1
    · exact hhonest.1
  | stranger => exact hb.congr rfl rfl rfl rfl
  | sends cid pdu ok hi =>
    unfold Links.l2capSend
    split
    · exact hb
    · exact balanced_flush (tidy_queueFrame ht hi _) (hb.congr rfl rfl rfl rfl)
  | told reports ok =>
    have hreports : Tidy (reports.foldl (fun w r => w.complete r.1 r.2) w) ∧
        Balanced (reports.foldl (fun w r => w.complete r.1 r.2) w) :=
      Runs.invariant (I := fun v => Tidy v ∧ Balanced v)
        (fun v r hv hr => ⟨tidy_complete hv.1 r.1 r.2, balanced_complete hv.1 hv.2 hr.2⟩)
        ⟨ht, hb⟩ hhonest
    exact balanced_flush hreports.1 hreports.2
  | down k => exact balanced_disconnected ht hb k
  | lost len num => exact balanced_setup len num

/-! ### Whole runs -/

/-- **Credits are conserved.**  After every run in which the controller is honest and no connection
with packets in the controller is forgotten: the credits and the packets that are out make up what
the controller offers, neither is negative, and the controller holds just the packets that are
counted, so that it has no more than it offered. -/
theorem credits_conserved (len num : ℕ) (l : List Ev) (w : Links)
    (hl : Runs.Each Links.step (fun v e => Honest v e ∧ Confirmed v e) (.setup len num) l)
    (hw : w = (Links.setup len num).after l) :
    w.credits + ∑ i, (w.conns i).unacked = w.aclNum ∧ 0 ≤ w.credits ∧
    (∀ i, 0 ≤ (w.conns i).unacked) ∧
    ((∑ h ∈ w.links.toFinset, w.held h : ℕ) : ℤ) = ∑ i, (w.conns i).unacked ∧
    ∑ h ∈ w.links.toFinset, w.held h ≤ w.aclNum := by
  have hinv : Tidy w ∧ Balanced w := by
    rw [hw]
    refine Runs.invariant (I := fun v => Tidy v ∧ Balanced v) ?_
      ⟨tidy_setup len num, balanced_setup len num⟩ hl
    rintro v e ⟨ht, hb⟩ ⟨hhonest, hconfirmed⟩
    exact ⟨tidy_step ht hhonest, balanced_step ht hb hhonest hconfirmed⟩
  obtain ⟨ht, hb⟩ := hinv
  have hheld := hb.held_eq ht
  have hsum := hb.sum
  have hcredits := hb.credits
  refine ⟨hsum, hcredits, hb.unacked_nonneg ht, hheld, ?_⟩
  have hle : ((∑ h ∈ w.links.toFinset, w.held h : ℕ) : ℤ) ≤ w.aclNum := by
    rw [hheld]
    omega
  exact_mod_cast hle

/-- Two links are up, with a packet in the controller each, and the first is closed. -/
def closedLink : List Ev :=
  [.connect 1, .connectNext, .connected 1, .ready 0, .connect 2, .connectNext, .connected 2,
    .ready 1, .send 0 4 [10, 3, 0] [], .send 1 4 [10, 3, 0] [], .disconnect 1, .closing 0]

/-- The close is not confirmed in time, the connection is forgotten, and then its packet is
reported: there are three of two. -/
theorem credits_minted :
    let l := closedLink ++ [.forget 0, .completed [(1, 1)] []]
    let w := (Links.setup 27 2).after l
    Runs.Each Links.step Honest (.setup 27 2) l ∧ w.aclNum = 2 ∧ w.credits = 2 ∧
    ∑ i, (w.conns i).unacked = 1 := by
  intro l w
  refine ⟨?_, by decide⟩
  show Runs.Each Links.step Honest (.setup 27 2) (closedLink ++ _)
  simp only [closedLink, cons_append, nil_append, Runs.Each, Honest]
  decide

/-- Reported before, it comes back once. -/
theorem credits_conserved_closedLink :
    let w := (Links.setup 27 2).after (closedLink ++ [.completed [(1, 1)] [], .forget 0])
    w.credits = 1 ∧ w.credits + ∑ i, (w.conns i).unacked = 2 := by
  intro w
  have hl : Runs.Each Links.step (fun v e => Honest v e ∧ Confirmed v e) (.setup 27 2)
      (closedLink ++ [.completed [(1, 1)] [], .forget 0]) := by
    simp only [closedLink, cons_append, nil_append, Runs.Each, Honest, Confirmed]
    decide
  obtain ⟨hsum, -⟩ := credits_conserved 27 2 _ w hl rfl
  exact ⟨by decide, hsum⟩

end Hassmic.Ble
