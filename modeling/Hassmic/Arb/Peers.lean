import Hassmic.Arb.Frame

/-!
# The table of peers

An entry is made for a member on demand, in place of the one heard of longest ago.
As long as the members fit the table, none is given up that is in use, and the table
is a map from members to the last counter taken from each.

## Main definitions

* `Table` — only members are in the table, each once.
* `ctrOf` — the last counter taken from a member.

## Main results

* `fresh_spec` — what `fresh` does to that map.
-/

namespace Hassmic.Arb

open List Option Function

/-- The slot `i` is in use. -/
def Used (s : St) (i : Fin nPeer) : Prop := (s.peers i).seen ≠ 0

instance (s : St) (i : Fin nPeer) : Decidable (Used s i) := inferInstanceAs (Decidable (_ ≠ _))

theorem holds_iff {s : St} {i : Fin nPeer} {id : Blob 8} :
    s.holds i id = true ↔ Used s i ∧ (s.peers i).id = id := by
  simp only [St.holds, Used, Bool.and_eq_true, bne_iff_ne, beq_iff_eq]

/-- **Only the members in `I` are in the table, each once.** -/
structure Table (I : Finset (Blob 8)) (s : St) : Prop where
  seen : ∀ i, 0 ≤ (s.peers i).seen
  mem : ∀ i, Used s i → (s.peers i).id ∈ I
  inj : ∀ i j, Used s i → Used s j → (s.peers i).id = (s.peers j).id → i = j

theorem table_empty {s : St} (h : ∀ i, (s.peers i).seen = 0) (I : Finset (Blob 8)) : Table I s :=
  ⟨fun i => (h i).ge, fun i hi => absurd (h i) hi, fun i _ hi => absurd (h i) hi⟩

/-- The last counter taken from a member that has a slot. -/
def ctrOf (s : St) (id : Blob 8) : Option UInt64 :=
  ((List.finRange nPeer).find? fun i => s.holds i id).map fun i => (s.peers i).ctr

section Lookup

variable {s t : St} {I : Finset (Blob 8)} {id : Blob 8} {i : Fin nPeer}

theorem ctrOf_eq_none : ctrOf s id = none ↔ ∀ i, s.holds i id = false := by
  rw [ctrOf, map_eq_none_iff, find?_eq_none]
  simp [mem_finRange]

theorem ctrOf_of_holds (h : Table I s) (hi : s.holds i id = true) :
    ctrOf s id = some (s.peers i).ctr := by
  cases hfind : (List.finRange nPeer).find? fun i => s.holds i id with
  | none =>
    have := find?_eq_none.mp hfind i (mem_finRange i)
    exact absurd hi this
  | some j =>
    have hj : s.holds j id = true := by simpa using find?_some hfind
    obtain ⟨hju, hjid⟩ := holds_iff.mp hj
    obtain ⟨hiu, hiid⟩ := holds_iff.mp hi
    rw [ctrOf, hfind, map_some, h.inj j i hju hiu (hjid.trans hiid.symm)]

theorem ctrOf_congr (hhold : ∀ i, t.holds i id = s.holds i id)
    (hctr : ∀ i, s.holds i id = true → (t.peers i).ctr = (s.peers i).ctr) :
    ctrOf t id = ctrOf s id := by
  have hfun : (fun i => t.holds i id) = fun i => s.holds i id := funext hhold
  unfold ctrOf
  rw [hfun]
  cases hfind : (List.finRange nPeer).find? fun i => s.holds i id with
  | none => rfl
  | some j =>
    have hj : s.holds j id = true := by simpa using find?_some hfind
    rw [map_some, map_some, hctr j hj]

/-- Two entries count the same member, heard of at the same time. -/
def Peer.Same (p q : Peer) : Prop := p.id = q.id ∧ p.ctr = q.ctr ∧ p.seen = q.seen

theorem table_same (hsame : ∀ i, (t.peers i).Same (s.peers i)) (h : Table I s) :
    Table I t ∧ ∀ id, ctrOf t id = ctrOf s id := by
  have hused : ∀ i, Used t i → Used s i := fun i hi => by
    unfold Used at hi ⊢
    rwa [(hsame i).2.2] at hi
  refine ⟨⟨fun i => ?_, fun i hi => ?_, fun i j hi hj heq => ?_⟩, fun id => ctrOf_congr ?_ ?_⟩
  · rw [(hsame i).2.2]
    exact h.seen i
  · rw [(hsame i).1]
    exact h.mem i (hused i hi)
  · rw [(hsame i).1, (hsame j).1] at heq
    exact h.inj i j (hused i hi) (hused j hj) heq
  · intro i
    simp only [St.holds, (hsame i).1, (hsame i).2.2]
  · exact fun i _ => (hsame i).2.1

theorem hit_or_miss (s : St) (id : Blob 8) :
    s.holds (s.peerSlot id) id = true ∨ ∀ j, s.holds j id = false := by
  rcases Slots.pick_spec (fun j => (s.peers j).seen != 0 && (s.peers j).id == id)
    (fun j => (s.peers j).seen) with hit | ⟨hnone, -⟩
  · exact .inl hit
  · exact .inr hnone

theorem ne_of_miss (hmiss : ∀ j, s.holds j id = false) {j : Fin nPeer} (hj : Used s j) :
    (s.peers j).id ≠ id := by
  intro heq
  have := holds_iff.mpr ⟨hj, heq⟩
  rw [hmiss j] at this
  exact absurd this (by simp)

/-- With the members that fit the table, the slot of a new one is free. -/
theorem free_of_miss (h : Table I s) (hI : I.card ≤ nPeer) (hid : id ∈ I)
    (hmiss : ∀ j, s.holds j id = false) : ¬ Used s (s.peerSlot id) := by
  obtain ⟨j, hj⟩ : ∃ j, ¬ Used s j := by
    apply Slots.exists_free (fun j => (s.peers j).id) (I.erase id)
    · intro j hj
      exact Finset.mem_erase.mpr ⟨ne_of_miss hmiss hj, h.mem j hj⟩
    · rw [Finset.card_erase_of_mem hid]
      have : 0 < I.card := Finset.card_pos.mpr ⟨id, hid⟩
      omega
    · exact h.inj
  -- the slot found is no younger than the free one
  have hseen : (s.peers j).seen = 0 := not_not.mp hj
  have hpick := Slots.pick_spec (fun j => (s.peers j).seen != 0 && (s.peers j).id == id)
    fun j => (s.peers j).seen
  rcases hpick with hit | ⟨-, hold⟩
  · exact absurd (hmiss _) (by rw [St.holds]; simpa using hit)
  · have hle : (s.peers (s.peerSlot id)).seen ≤ (s.peers j).seen := hold j
    have := h.seen (s.peerSlot id)
    intro hused
    apply hused
    omega

end Lookup

/-! ### `fresh` -/

section Fresh

variable {s t : St} {I : Finset (Blob 8)} {id : Blob 8} {c : UInt64} {i : Fin nPeer}

/-- What `fresh` does with the counter of a member that has a slot. -/
theorem fresh_hit (hhit : s.holds (s.peerSlot id) id = true) (now : ℤ) :
    s.fresh id c now =
      if c ≤ (s.peers (s.peerSlot id)).ctr then (false, s.log (.fresh id c false))
      else (true, { s with
        peers := update s.peers (s.peerSlot id)
          { s.peers (s.peerSlot id) with ctr := c, seen := now } }.log (.fresh id c true)) := by
  have hused : (s.peers (s.peerSlot id)).seen ≠ 0 := (holds_iff.mp hhit).1
  have hpeer : s.peer id = s := by rw [St.peer, if_pos hhit]
  unfold St.fresh
  simp only [hpeer, if_neg hused]

/-- What `fresh` does with the counter of a member that has none. -/
theorem fresh_miss (hmiss : ∀ j, s.holds j id = false) (now : ℤ) :
    s.fresh id c now =
      if c ≤ 0 then
        (false, { s with
          peers := update s.peers (s.peerSlot id) {} }.log (.fresh id c false))
      else (true, { s with
        peers := update s.peers (s.peerSlot id)
          { id := id, ctr := c, seen := now } }.log (.fresh id c true)) := by
  have hpeer : s.peer id
      = { s with peers := update s.peers (s.peerSlot id) { id := id } } := by
    rw [St.peer, if_neg (by rw [hmiss]; simp)]
  unfold St.fresh
  rw [hpeer]
  simp only [update_self, update_idem, if_true]

/-- A slot that stays free is set. -/
theorem table_clear (h : Table I s) (hfree : ¬ Used s i)
    (hpeers : t.peers = update s.peers i {}) :
    Table I t ∧ ∀ id', ctrOf t id' = ctrOf s id' := by
  have hself : (t.peers i).seen = 0 := by rw [hpeers, update_self]
  have hother : ∀ j, j ≠ i → t.peers j = s.peers j := fun j hj => by
    rw [hpeers, update_of_ne hj]
  have hused : ∀ j, Used t j → j ≠ i ∧ Used s j := by
    intro j hj
    have hne : j ≠ i := fun heq => hj (by rw [heq, hself])
    exact ⟨hne, by unfold Used at hj ⊢; rwa [hother j hne] at hj⟩
  refine ⟨⟨fun j => ?_, fun j hj => ?_, fun j k hj hk heq => ?_⟩, fun id' => ctrOf_congr ?_ ?_⟩
  · by_cases hji : j = i
    · rw [hji, hself]
    · rw [hother j hji]
      exact h.seen j
  · obtain ⟨hne, hju⟩ := hused j hj
    rw [hother j hne]
    exact h.mem j hju
  · obtain ⟨hne, hju⟩ := hused j hj
    obtain ⟨hne', hku⟩ := hused k hk
    rw [hother j hne, hother k hne'] at heq
    exact h.inj j k hju hku heq
  · intro j
    by_cases hji : j = i
    · have hs : s.holds i id' = false := Bool.eq_false_iff.mpr fun hh => hfree (holds_iff.mp hh).1
      have ht : t.holds i id' = false := Bool.eq_false_iff.mpr fun hh => (holds_iff.mp hh).1 hself
      rw [hji, hs, ht]
    · simp only [St.holds, hother j hji]
  · intro j hj
    have hne : j ≠ i := fun heq => hfree (heq ▸ (holds_iff.mp hj).1)
    rw [hother j hne]

/-- A slot is set for a member that no other slot holds. -/
theorem table_set (h : Table I s) (hid : id ∈ I) {q : Peer}
    (hq : q.id = id ∧ q.ctr = c ∧ 0 < q.seen) (hpeers : t.peers = update s.peers i q)
    (hslot : Used s i → (s.peers i).id = id) (hfree : ∀ j, j ≠ i → Used s j → (s.peers j).id ≠ id) :
    Table I t ∧ ∀ id', ctrOf t id' = if id' = id then some c else ctrOf s id' := by
  obtain ⟨hqid, hqctr, hqseen⟩ := hq
  have hself : t.peers i = q := by rw [hpeers, update_self]
  have hother : ∀ j, j ≠ i → t.peers j = s.peers j := fun j hj => by
    rw [hpeers, update_of_ne hj]
  -- the other entries are as they were
  have hused : ∀ j, j ≠ i → (Used t j ↔ Used s j) := by
    intro j hj
    unfold Used
    rw [hother j hj]
  have htable : Table I t := by
    refine ⟨fun j => ?_, fun j hj => ?_, fun j k hj hk heq => ?_⟩
    · by_cases hji : j = i
      · rw [hji, hself]
        exact hqseen.le
      · rw [hother j hji]
        exact h.seen j
    · by_cases hji : j = i
      · rw [hji, hself, hqid]
        exact hid
      · rw [hother j hji]
        exact h.mem j ((hused j hji).mp hj)
    · by_cases hji : j = i
      · by_cases hki : k = i
        · rw [hji, hki]
        · rw [hji, hself, hqid, hother k hki] at heq
          exact absurd heq.symm (hfree k hki ((hused k hki).mp hk))
      · by_cases hki : k = i
        · rw [hki, hself, hqid, hother j hji] at heq
          exact absurd heq (hfree j hji ((hused j hji).mp hj))
        · rw [hother j hji, hother k hki] at heq
          exact h.inj j k ((hused j hji).mp hj) ((hused k hki).mp hk) heq
  refine ⟨htable, fun id' => ?_⟩
  by_cases hid' : id' = id
  · have hhold : t.holds i id = true := by
      refine holds_iff.mpr ⟨?_, by rw [hself, hqid]⟩
      unfold Used
      rw [hself]
      exact hqseen.ne'
    rw [if_pos hid', hid', ctrOf_of_holds htable hhold, hself, hqctr]
  · rw [if_neg hid']
    -- the entry was never another sender's
    have hnot : ∀ u : St, (Used u i → (u.peers i).id = id) → u.holds i id' = false := by
      intro u hu
      refine Bool.eq_false_iff.mpr fun hh => ?_
      obtain ⟨hui, huid⟩ := holds_iff.mp hh
      exact hid' (huid.symm.trans (hu hui))
    refine ctrOf_congr (fun j => ?_) fun j hj => ?_
    · by_cases hji : j = i
      · rw [hji, hnot s hslot, hnot t fun _ => by rw [hself, hqid]]
      · simp only [St.holds, hother j hji]
    · have hne : j ≠ i := by
        rintro rfl
        rw [hnot s hslot] at hj
        exact absurd hj (by simp)
      rw [hother j hne]

/-- **What `fresh` does to the table**: a counter above the last one of its sender is
taken and becomes the last one, any other changes nothing. -/
theorem fresh_spec (h : Table I s) (hI : I.card ≤ nPeer) (hid : id ∈ I) (c : UInt64)
    (now : Instant) :
    ((s.fresh id c now.1).1 = true ↔ (ctrOf s id).getD 0 < c) ∧
    Table I (s.fresh id c now.1).2 ∧
    ∀ id', ctrOf (s.fresh id c now.1).2 id' =
      if (s.fresh id c now.1).1 = true ∧ id' = id then some c else ctrOf s id' := by
  rcases hit_or_miss s id with hhit | hmiss
  · -- the sender has a slot
    obtain ⟨hused, hheld⟩ := holds_iff.mp hhit
    rw [ctrOf_of_holds h hhit, fresh_hit hhit, getD_some]
    split
    · next hle =>
      refine ⟨iff_of_false (by simp) (UInt64.not_lt.mpr hle), ⟨h.seen, h.mem, h.inj⟩, fun id' => ?_⟩
      rw [if_neg (by simp)]
      rfl
    · next hlt =>
      obtain ⟨htable, hctr⟩ := table_set (i := s.peerSlot id) (t := { s with
        peers := update s.peers (s.peerSlot id)
          { s.peers (s.peerSlot id) with ctr := c, seen := now.1 } }.log (.fresh id c true))
        (q := { s.peers (s.peerSlot id) with ctr := c, seen := now.1 })
        h hid ⟨hheld, rfl, now.2⟩ rfl (fun _ => hheld)
        fun j hj hju heq => hj (h.inj j _ hju hused (heq.trans hheld.symm))
      refine ⟨iff_of_true rfl (UInt64.not_le.mp hlt), htable, fun id' => ?_⟩
      simpa using hctr id'
  · -- it gets one, which is free
    have hfree := free_of_miss h hI hid hmiss
    rw [ctrOf_eq_none.mpr hmiss, fresh_miss hmiss, getD_none]
    split
    · next hle =>
      obtain ⟨htable, hctr⟩ := table_clear (t := { s with
        peers := update s.peers (s.peerSlot id) {} }.log (.fresh id c false)) h hfree rfl
      refine ⟨iff_of_false (by simp) (UInt64.not_lt.mpr hle), htable, fun id' => ?_⟩
      rw [if_neg (by simp)]
      exact hctr id'
    · next hlt =>
      obtain ⟨htable, hctr⟩ := table_set (i := s.peerSlot id) (t := { s with
        peers := update s.peers (s.peerSlot id)
          { id := id, ctr := c, seen := now.1 } }.log (.fresh id c true))
        h hid ⟨rfl, rfl, now.2⟩ rfl (fun hu => absurd hu hfree)
        fun j _ hju => ne_of_miss hmiss hju
      refine ⟨iff_of_true rfl (UInt64.not_le.mp hlt), htable, fun id' => ?_⟩
      simpa using hctr id'

/-- What `fresh` leaves alone, and its answer in the history. -/
theorem fresh_frame (s : St) (id : Blob 8) (c : UInt64) (now : ℤ) :
    (s.fresh id c now).2.core = s.core ∧
    (s.fresh id c now).2.out = s.out ++ [.fresh id c (s.fresh id c now).1] := by
  have hpeer : (s.peer id).core = s.core ∧ (s.peer id).out = s.out := by
    unfold St.peer
    split <;> exact ⟨rfl, rfl⟩
  rw [← hpeer.1, ← hpeer.2]
  unfold St.fresh
  simp only
  split
  · split <;> exact ⟨rfl, rfl⟩
  · exact ⟨rfl, rfl⟩

end Fresh

end Hassmic.Arb
