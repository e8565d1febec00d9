import Hassmic.Arb.Book

/-!
# The table of rivals

No rival has two entries in the table, and a ring holds the rounds taken last.  Both hold in every
run, from whatever file an Echo starts, so that what is kept of a member is one list: its rounds,
the oldest first.

## Main definitions

* `Tidy` — a table in which each rival has one entry.
* `St.observed` — the rounds kept of a member.

## Main results

* `tidy_run`, `sampled_run` — the tables in every run.
* `St.observed_of`, `St.observed_none` — what is kept, by the entry.
* `St.rivalWaits_of_observed` — whether a round waits depends on the rounds kept alone.
-/

namespace Hassmic.Arb

open Function List

/-! ### One entry for each rival -/

/-- **Each rival has one entry**, and its ring holds what was taken last. -/
structure Tidy (r : Fin nPeer → Rival) : Prop where
  ring : ∀ i, (r i).n ≤ (r i).next
  distinct : ∀ i j, (r i).n ≠ 0 → (r j).n ≠ 0 → (r i).id = (r j).id → i = j

/-- No other entry has the id of the entry `i`. -/
def Alone (r : Fin nPeer → Rival) (i : Fin nPeer) : Prop :=
  ∀ j, j ≠ i → (r j).n ≠ 0 → (r j).id ≠ (r i).id

theorem tidy_empty : Tidy fun _ => {} := ⟨fun _ => le_rfl, fun _ _ hi => absurd rfl hi⟩

/-- An entry is replaced by one for which there is no other. -/
theorem Tidy.update {r : Fin nPeer → Rival} (h : Tidy r) (i : Fin nPeer) {v : Rival}
    (hring : v.n ≤ v.next) (hnew : v.n ≠ 0 → ∀ j, j ≠ i → (r j).n ≠ 0 → (r j).id ≠ v.id) :
    Tidy (Function.update r i v) := by
  have hself : Function.update r i v i = v := update_self i v r
  have hother : ∀ j, j ≠ i → Function.update r i v j = r j := fun j hj => update_of_ne hj v r
  refine ⟨fun j => ?_, fun j k hj hk hid => ?_⟩
  · by_cases hji : j = i
    · rw [hji, hself]
      exact hring
    · rw [hother j hji]
      exact h.ring j
  · by_cases hji : j = i
    · by_cases hki : k = i
      · rw [hji, hki]
      · rw [hji, hself] at hj hid
        rw [hother k hki] at hk hid
        exact absurd hid.symm (hnew hj k hki hk)
    · by_cases hki : k = i
      · rw [hki, hself] at hk hid
        rw [hother j hji] at hj hid
        exact absurd hid (hnew hk j hji hj)
      · rw [hother j hji] at hj hid
        rw [hother k hki] at hk hid
        exact h.distinct j k hj hk hid

namespace St

variable (C : Crypto) (s : St)

theorem rivalFind_some {id : Blob 8} {i : Fin nPeer} (h : s.rivalFind id = some i) :
    (s.rivals i).n ≠ 0 ∧ (s.rivals i).id = id := by
  have hfound := find?_some h
  simp only [Bool.and_eq_true, bne_iff_ne, beq_iff_eq] at hfound
  exact hfound

theorem rivalFind_none {id : Blob 8} (h : s.rivalFind id = none) :
    ∀ i, (s.rivals i).n ≠ 0 → (s.rivals i).id ≠ id := by
  intro i hn hid
  have hmiss := find?_eq_none.mp h i (mem_finRange i)
  refine hmiss ?_
  simp only [Bool.and_eq_true, bne_iff_ne, beq_iff_eq]
  exact ⟨hn, hid⟩

/-- **The entry of a rival**: found or made, it is the only one. -/
theorem rival_spec (id : Blob 8) (h : Tidy s.rivals) :
    Tidy (s.rival id).2.rivals ∧ Alone (s.rival id).2.rivals (s.rival id).1 := by
  unfold rival
  split
  · next i hfind =>
    refine ⟨h, fun j hj hn hid => hj ?_⟩
    exact h.distinct j i hn (s.rivalFind_some hfind).1 hid
  · next hfind =>
    have hmiss := s.rivalFind_none hfind
    refine ⟨h.update s.rivalReuse le_rfl fun hn => absurd rfl hn, fun j hj hn => ?_⟩
    dsimp only at hn ⊢
    rw [update_self, update_of_ne hj]
    rw [update_of_ne hj] at hn
    exact hmiss j hn

/-- A round is kept in an entry that is the only one. -/
theorem tidy_observe {i : Fin nPeer} (own d : Int32) (at_ : ℤ) (h : Tidy s.rivals)
    (halone : Alone s.rivals i) :
    Tidy (s.observe i own d at_).rivals ∧ Alone (s.observe i own d at_).rivals i := by
  have hring := h.ring i
  unfold observe
  dsimp only
  refine ⟨h.update i ?_ fun _ j hj hn => halone j hj hn, fun j hj hn => ?_⟩
  · dsimp only
    split
    · omega
    · omega
  · rw [update_self, update_of_ne hj]
    rw [update_of_ne hj] at hn
    exact halone j hj hn

theorem tidy_loadRounds {i : Fin nPeer} (k : ℕ) (l : Bytes) (h : Tidy s.rivals)
    (halone : Alone s.rivals i) :
    Tidy (loadRounds i k s l).rivals := by
  induction k generalizing s l with
  | zero => exact h
  | succ k ih =>
    rw [loadRounds]
    split
    · exact h
    · next r _ =>
      obtain ⟨htidy, hself⟩ := s.tidy_observe r.1.own r.1.d 1 h halone
      exact ih (s.observe i r.1.own r.1.d 1) r.2 htidy hself

theorem tidy_loadObs (id : Blob 8) (l : Bytes) (h : Tidy s.rivals) :
    Tidy (s.loadObs id l).rivals := by
  obtain ⟨htidy, hself⟩ := s.rival_spec id h
  have hread := tidy_loadRounds _ l.length l htidy hself
  unfold loadObs
  dsimp only
  split
  · exact hread.update _ le_rfl fun hn => absurd rfl hn
  · exact hread

/-- Rounds of a rival are no samples. -/
theorem delays_loadObs (id : Blob 8) (l : Bytes) :
    ((s.loadObs id l).delays, (s.loadObs id l).ndelay) = (s.delays, s.ndelay) := by
  have hrounds : ∀ (k : ℕ) (t : St) (i : Fin nPeer) (l : Bytes),
      ((loadRounds i k t l).delays, (loadRounds i k t l).ndelay) = (t.delays, t.ndelay) := by
    intro k
    induction k with
    | zero => exact fun _ _ _ => rfl
    | succ k ih =>
      intro t i l
      rw [loadRounds]
      split
      · rfl
      · exact ih _ i _
  have hrival : ((s.rival id).2.delays, (s.rival id).2.ndelay) = (s.delays, s.ndelay) := by
    unfold rival
    split
    · rfl
    · rfl
  unfold loadObs
  dsimp only
  split
  · exact (hrounds _ _ _ _).trans hrival
  · exact (hrounds _ _ _ _).trans hrival

/-- The tables that a file speaks of. -/
def tables := (s.rivals, s.delays, s.ndelay)

theorem tables_loadNet (id : UInt64) (k64 : Bytes) : (loadNet C s id k64).tables = s.tables := by
  unfold loadNet
  dsimp only
  split
  · rfl
  · rfl

/-- The samples of a file lie in the time a round samples. -/
theorem scanDelay_range {l : Bytes} {d : Delay} (h : scanDelay l = some d) :
    0 ≤ d.ms.toInt ∧ d.ms.toInt ≤ measureMs := by
  unfold scanDelay at h
  simp only [Option.bind_eq_bind, Option.bind_eq_some_iff] at h
  obtain ⟨_, _, _, _, _, _, r, _, hrange⟩ := h
  split at hrange
  · next hr =>
    have hmeasure : measureMs = 1500 := rfl
    rw [← Option.some.inj hrange]
    dsimp only
    rw [Int32.toInt_ofInt_of_le (by omega) (by omega)]
    exact hr
  · cases hrange

theorem tidy_loadLine (line : Bytes) (h : Tidy s.rivals ∧ Sampled s) :
    Tidy (loadLine C s line).rivals ∧ Sampled (loadLine C s line) := by
  unfold loadLine loadText
  split
  · exact h
  split
  · exact h
  split
  · next r _ =>
    split
    · have htables := s.tables_loadNet C r.1 r.2
      have hdelays : (loadNet C s r.1 r.2).delays = s.delays := congrArg (·.2.1) htables
      have hrivals : (loadNet C s r.1 r.2).rivals = s.rivals := congrArg (·.1) htables
      unfold Sampled
      rw [hdelays, hrivals]
      exact h
    · exact h
  split
  · next d hd =>
    refine ⟨h.1, fun j => ?_⟩
    dsimp only
    by_cases hj : j = Fin.ofNat nDelay s.ndelay
    · rw [hj, update_self]
      exact .inr (scanDelay_range hd)
    · rw [update_of_ne hj]
      exact h.2 j
  split
  · next r _ =>
    refine ⟨s.tidy_loadObs r.1 r.2 h.1, ?_⟩
    have hdelays : (s.loadObs r.1 r.2).delays = s.delays :=
      (Prod.mk.inj (s.delays_loadObs r.1 r.2)).1
    unfold Sampled
    rw [hdelays]
    exact h.2
  · exact h

end St

/-! ### In every run -/

theorem tidy_enter {r : Fin nPeer → Rival} (h : Tidy r) (g : Given) : Tidy (g.enter r) := by
  obtain ⟨htidy, hself⟩ := ({ rivals := r } : St).rival_spec g.id h
  exact (St.tidy_observe _ g.own g.d g.at_ htidy hself).1

theorem tidy_start (C : Crypto) (b : Boot) : Tidy (start C b).rivals ∧ Sampled (start C b) := by
  have hboot : Tidy (boot b).rivals ∧ Sampled (boot b) :=
    ⟨tidy_empty, fun _ => .inr ⟨le_rfl, (by decide : (0 : Int32).toInt ≤ measureMs)⟩⟩
  have hloaded : Tidy (loaded C b).rivals ∧ Sampled (loaded C b) := by
    unfold loaded
    split
    · next text _ =>
      unfold St.load
      exact Runs.invariant_all (I := fun s => Tidy s.rivals ∧ Sampled s)
        (fun s line h => s.tidy_loadLine C line h) hboot _
    · exact hboot
  have hstart : ((start C b).rivals, (start C b).delays) =
      ((loaded C b).rivals, (loaded C b).delays) := by
    unfold start
    dsimp only
    split
    · rfl
    · rfl
  obtain ⟨hrivals, hdelays⟩ := Prod.mk.inj hstart
  unfold Sampled
  rw [hrivals, hdelays]
  exact hloaded

theorem tidy_step {C : Crypto} {s : St} (ev : Ev) (h : Tidy s.rivals ∧ Sampled s) :
    Tidy (s.step C ev).rivals ∧ Sampled (s.step C ev) := by
  obtain ⟨hledger, hsampled, -⟩ := s.step_ledger C ev
  refine ⟨?_, hsampled h.2⟩
  have hpast : Tidy (s.after (s.closing ev)).rivals := by
    cases s.closing ev with
    | none => exact h.1
    | some cutoff =>
      exact Runs.invariant_all (I := Tidy) (fun r g hr => tidy_enter hr g) h.1 (s.given cutoff)
  have hrivals : (s.step C ev).rivals = (s.after (s.closing ev)).rivals := by
    rcases hledger with ⟨-, hledger⟩ | ⟨keyword, score, prio, now, rand, rfl,
      hledger | ⟨w, -, hledger⟩⟩
    · exact congrArg St.Ledger.rivals hledger
    · exact congrArg St.Ledger.rivals hledger
    · exact congrArg St.Ledger.rivals hledger
  rw [hrivals]
  exact hpast

/-- **The tables in every run.** -/
theorem tidy_run (C : Crypto) (b : Boot) (l : List Ev) :
    Tidy ((start C b).run C l).rivals ∧ Sampled ((start C b).run C l) :=
  Runs.invariant_all (I := fun s => Tidy s.rivals ∧ Sampled s) (fun _ ev h => tidy_step ev h)
    (tidy_start C b) l

/-! ### What is kept of a member -/

namespace St

variable {s t : St}

/-- The rounds kept of a member, the oldest first. -/
def observed (s : St) (id : Blob 8) : List Obs :=
  match s.rivalFind id with
  | some i => oldest (s.rivals i)
  | none => []

theorem observed_of (h : Tidy s.rivals) {i : Fin nPeer} (hn : (s.rivals i).n ≠ 0) :
    s.observed (s.rivals i).id = oldest (s.rivals i) := by
  unfold observed
  cases hfind : s.rivalFind (s.rivals i).id with
  | none => exact absurd rfl (s.rivalFind_none hfind i hn)
  | some j =>
    obtain ⟨hj, hid⟩ := s.rivalFind_some hfind
    rw [h.distinct j i hj hn hid]

theorem observed_none {id : Blob 8} (h : ∀ i, (s.rivals i).n ≠ 0 → (s.rivals i).id ≠ id) :
    s.observed id = [] := by
  unfold observed
  cases hfind : s.rivalFind id with
  | none => rfl
  | some i =>
    obtain ⟨hn, hid⟩ := s.rivalFind_some hfind
    exact absurd hid (h i hn)

/-- The newest round first is the oldest first, the other way. -/
theorem newest_eq {v : Rival} (h : v.n ≤ v.next) : newest v = (oldest v).reverse := by
  have hreverse : (List.range v.n).reverse = (List.range v.n).map fun k => v.n - 1 - k := by
    rw [range_eq_range', reverse_range', range_eq_range', Nat.zero_add]
  unfold newest oldest
  rw [← map_reverse, hreverse, map_map]
  refine map_congr_left fun k hk => ?_
  have hkn : k < v.n := mem_range.mp hk
  have hplace : v.next - 1 - k = v.next - v.n + (v.n - 1 - k) := by omega
  rw [hplace]
  rfl

theorem rivalWaits_eq (h : Tidy s.rivals) (id : Blob 8) (score : Int32) :
    s.rivalWaits id score =
      if !s.rivalsOn then true
      else
        let r := (s.observed id).reverse.foldl (weigh score) (0.5, 2.0, 1.0)
        decide (0.15 < r.1 / r.2.1) := by
  have hkept : (match s.rivalFind id with
      | some i => newest (s.rivals i)
      | none => []) = (s.observed id).reverse := by
    unfold observed
    cases s.rivalFind id with
    | none => rfl
    | some i => exact newest_eq (h.ring i)
  exact congrArg (fun kept : List Obs =>
    if !s.rivalsOn then true
    else
      let r := kept.foldl (weigh score) (0.5, 2.0, 1.0)
      decide (0.15 < r.1 / r.2.1)) hkept

/-- **Whether a round waits for a member depends on the rounds kept of it alone.** -/
theorem rivalWaits_of_observed (hs : Tidy s.rivals) (ht : Tidy t.rivals)
    (hon : t.rivalsOn = s.rivalsOn) {id : Blob 8} (h : t.observed id = s.observed id)
    (score : Int32) :
    t.rivalWaits id score = s.rivalWaits id score := by
  rw [rivalWaits_eq ht, rivalWaits_eq hs, h, hon]

end St

end Hassmic.Arb
