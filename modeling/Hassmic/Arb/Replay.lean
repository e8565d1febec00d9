import Hassmic.Lib.Runs
import Hassmic.Arb.Moves

/-!
# No packet counts twice

An authentic packet is taken only if its counter is above the last one taken from
that member, which the table of peers keeps.  As long as the members fit the
table, no entry that matters is ever given up, so the counters taken from one
member rise, from the start or from the last key taken on.

## Main definitions

* `era` — the history since the last key was taken on.
* `taken` — the counters taken from a member.
* `Guarded` — what the table keeps of the era.

## Main results

* `fresh_once` — each counter of a member is taken once, and they rise.
-/

namespace Hassmic.Arb

open List

/-! ### The era of a key -/

/-- One entry of the history, seen from the era of a key. -/
def eraStep (l : List Out) : Out → List Out
  | .adopted => []
  | o => l ++ [o]

/-- The history since the last key was taken on. -/
def era (l : List Out) : List Out := l.foldl eraStep []

/-- The counter a packet of the member `id` was taken with. -/
def takenOf (id : Blob 8) : Out → Option UInt64
  | .fresh i c true => if i = id then some c else none
  | _ => none

/-- The counters taken from the member `id`, in order. -/
def taken (id : Blob 8) (l : List Out) : List UInt64 := l.filterMap (takenOf id)

/-- All packets taken, with their senders. -/
def allTaken (l : List Out) : List (Blob 8 × UInt64) :=
  l.filterMap fun o => match o with
    | .fresh i c true => some (i, c)
    | _ => none

variable {C : Crypto} {s : St}

theorem era_append_of_plain {c : Core} {l : List Out} :
    ∀ (m : List Out), (∀ o ∈ m, Plain C c o) → era (l ++ m) = era l ++ m := by
  intro m
  induction m using List.reverseRecOn with
  | nil => intro _; simp
  | append_singleton m o ih =>
    intro h
    have ho : eraStep (era l ++ m) o = era l ++ m ++ [o] := by
      have hplain := h o (by simp)
      cases hplain with
      | adds hadds => cases hadds <;> rfl
      | kept k => rfl
      | claimed due => rfl
      | decided win => rfl
    have hinit := ih fun o ho => h o (by simp [ho])
    rw [← append_assoc, era, foldl_append, foldl_cons, foldl_nil, ← era, hinit, ho,
      append_assoc]

/-- What is ordinary takes no packet. -/
theorem taken_of_plain {c : Core} {id : Blob 8} {m : List Out}
    (h : ∀ o ∈ m, Plain C c o) : taken id m = [] := by
  refine filterMap_eq_nil_iff.mpr fun o ho => ?_
  cases h o ho with
  | adds hadds => cases hadds <;> rfl
  | kept k => rfl
  | claimed due => rfl
  | decided win => rfl

/-! ### What the table keeps -/

/-- All packets of the era came from the members in `I`. -/
def From (I : Finset (Blob 8)) (s : St) : Prop :=
  ∀ id c b, Out.fresh id c b ∈ era s.out → id ∈ I

/-- **What the table of peers keeps of the era.** -/
structure Guarded (I : Finset (Blob 8)) (s : St) : Prop where
  table : Table I s
  last : ∀ id, ∀ c ∈ taken id (era s.out), ∃ last, ctrOf s id = some last ∧ c ≤ last
  rising : ∀ id, (taken id (era s.out)).Pairwise (· < ·)

/-- The table is guarded for every set of members that holds the senders of the era. -/
def Safe (s : St) : Prop := ∀ I : Finset (Blob 8), I.card ≤ nPeer → From I s → Guarded I s

/-! ### The moves keep it -/

theorem era_still {t : St} (h : Still C s t) :
    ∃ m, era t.out = era s.out ++ m ∧ ∀ o ∈ m, Plain C s.core o := by
  obtain ⟨m, hm, hplain⟩ := h.out
  exact ⟨m, by rw [hm, era_append_of_plain m hplain], hplain⟩

theorem safe_still {t : St} (h : Still C s t) (hs : Safe s) : Safe t := by
  obtain ⟨m, hera, hplain⟩ := era_still h
  have htaken : ∀ id, taken id (era t.out) = taken id (era s.out) := by
    intro id
    rw [hera, taken, filterMap_append, ← taken, ← taken, taken_of_plain hplain, append_nil]
  intro I hI hfrom
  have hg := hs I hI fun id c b hmem => hfrom id c b (by rw [hera]; simp [hmem])
  obtain ⟨htable, hctr⟩ := table_same h.peers hg.table
  refine ⟨htable, fun id c hc => ?_, fun id => ?_⟩
  · rw [htaken] at hc
    rw [hctr]
    exact hg.last id c hc
  · rw [htaken]
    exact hg.rising id

theorem adopt_out (C : Crypto) (s : St) (k : Blob 32) (id : UInt64) (now : ℤ) :
    ∃ text, (s.adopt C k id now).out = s.out ++ [.adopted] ++ [.saved text] := ⟨_, rfl⟩

theorem safe_adopt (C : Crypto) (s : St) (k : Blob 32) (id : UInt64) (now : ℤ) :
    Safe (s.adopt C k id now) := by
  obtain ⟨text, hera⟩ : ∃ text, era (s.adopt C k id now).out = [Out.saved text] := by
    obtain ⟨text, hout⟩ := adopt_out C s k id now
    refine ⟨text, ?_⟩
    rw [hout, era, foldl_append, foldl_append]
    rfl
  have hnone : ∀ id', taken id' (era (s.adopt C k id now).out) = [] := by
    intro id'
    rw [hera]
    rfl
  refine fun I _ _ => ⟨table_empty (fun i => rfl) I, fun id' c hc => ?_, fun id' => ?_⟩
  · rw [hnone] at hc
    exact absurd hc (by simp)
  · rw [hnone]
    exact List.Pairwise.nil

/-- The counters taken, with what `fresh` answered last. -/
theorem taken_append_fresh (l : List Out) (id id' : Blob 8) (c : UInt64) (b : Bool) :
    taken id' (l ++ [.fresh id c b])
      = if b = true ∧ id' = id then taken id' l ++ [c] else taken id' l := by
  rw [taken, filterMap_append, ← taken]
  cases b with
  | false => simp [takenOf]
  | true =>
    by_cases h : id' = id
    · simp [takenOf, h]
    · simp [takenOf, h, Ne.symm h]

theorem era_append_fresh (l : List Out) (id : Blob 8) (c : UInt64) (b : Bool) :
    era (l ++ [.fresh id c b]) = era l ++ [.fresh id c b] := by
  rw [era, foldl_append]
  rfl

theorem safe_fresh (hs : Safe s) (id : Blob 8) (c : UInt64) (now : Instant) :
    Safe (s.fresh id c now.1).2 := by
  have hera : era (s.fresh id c now.1).2.out
      = era s.out ++ [.fresh id c (s.fresh id c now.1).1] := by
    rw [(fresh_frame s id c now.1).2, era_append_fresh]
  intro I hI hfrom
  have hid : id ∈ I := hfrom id c (s.fresh id c now.1).1 (by rw [hera]; simp)
  have hg := hs I hI fun id' c' b hmem => hfrom id' c' b (by rw [hera]; simp [hmem])
  obtain ⟨htaken, htable, hctr⟩ := fresh_spec hg.table hI hid c now
  refine ⟨htable, fun id' c' hc' => ?_, fun id' => ?_⟩
  · rw [hera, taken_append_fresh] at hc'
    rw [hctr]
    split at hc'
    · next h =>
      rw [if_pos h]
      refine ⟨c, rfl, ?_⟩
      rcases mem_append.mp hc' with hc' | hc'
      · -- taken before: not above the last one, which the new one is above
        rw [h.2] at hc'
        obtain ⟨last, hlast, hle⟩ := hg.last id c' hc'
        have hlt := htaken.mp h.1
        rw [hlast] at hlt
        exact UInt64.le_of_lt (UInt64.lt_of_le_of_lt hle hlt)
      · rw [mem_singleton.mp hc']
        exact UInt64.le_refl c
    · next h =>
      rw [if_neg h]
      exact hg.last id' c' hc'
  · rw [hera, taken_append_fresh]
    split
    · next h =>
      rw [pairwise_append]
      refine ⟨hg.rising id', pairwise_singleton _ _, fun a ha b hb => ?_⟩
      rw [mem_singleton.mp hb]
      rw [h.2] at ha
      obtain ⟨last, hlast, hle⟩ := hg.last id a ha
      have hlt := htaken.mp h.1
      rw [hlast] at hlt
      exact UInt64.lt_of_le_of_lt hle hlt
    · exact hg.rising id'

/-! ### Runs -/

theorem safe_moves {Z : Prop} {t : St} (h : Moves C Z s t) (hs : Safe s) : Safe t := by
  cases h with
  | still h => exact safe_still h hs
  | fresh id c now => exact safe_fresh hs id c now
  | adopt k id now _ _ => exact safe_adopt C s k id now

theorem safe_reaches {Z : Prop} {t : St} (h : Reaches C Z s t) (hs : Safe s) :
    Safe t := by
  induction h with
  | refl => exact hs
  | tail _ hstep ih => exact safe_moves hstep ih

theorem safe_run (C : Crypto) (l : List Ev) (s : St) (hs : Safe s) : Safe (s.run C l) :=
  Runs.invariant_all (fun s ev hs => safe_reaches (s.step_reaches C ev) hs) hs l

/-! ### From the start -/

theorem not_mem_start (C : Crypto) (b : Boot) {id : Blob 8} {c : UInt64} {r : Bool} :
    Out.fresh id c r ∉ (start C b).out := by
  obtain ⟨u, -, hout⟩ := start_out C b
  rw [hout]
  split <;> simp

/-- Before its first packet an Echo has taken none, and its table is empty. -/
theorem safe_start (C : Crypto) (b : Boot) : Safe (start C b) := by
  have hera : ∀ o ∈ era (start C b).out, o ∈ (start C b).out := by
    obtain ⟨u, -, hout⟩ := start_out C b
    rw [hout]
    split <;> exact fun o ho => ho
  have hnone : ∀ id, taken id (era (start C b).out) = [] := by
    intro id
    refine filterMap_eq_nil_iff.mpr fun o ho => ?_
    cases o with
    | fresh i c r => exact absurd (hera _ ho) (not_mem_start C b)
    | _ => rfl
  refine fun I _ _ =>
    ⟨table_empty (fun i => by rw [start_peers]) I, fun id c hc => ?_, fun id => ?_⟩
  · rw [hnone] at hc
    exact absurd hc (by simp)
  · rw [hnone]
    exact List.Pairwise.nil

theorem taken_eq_filterMap (id : Blob 8) (l : List Out) :
    taken id l = (allTaken l).filterMap fun p => if p.1 = id then some p.2 else none := by
  rw [allTaken, filterMap_filterMap, taken]
  apply filterMap_congr
  intro o _
  unfold takenOf
  split <;> rfl

/-- Counters that rise for each sender are taken once. -/
theorem nodup_allTaken {l : List Out} (h : ∀ id, (taken id l).Pairwise (· < ·)) :
    (allTaken l).Nodup := by
  rw [nodup_iff_sublist]
  rintro ⟨id, c⟩ htwice
  have hsub : [c, c].Sublist (taken id l) := by
    rw [taken_eq_filterMap]
    simpa using htwice.filterMap fun p : Blob 8 × UInt64 => if p.1 = id then some p.2 else none
  have hlt := (h id).sublist hsub
  simp at hlt

/-- **No packet counts twice.**  In every run from a start, with whatever packets are
delivered from the members in `I` since the last key was taken on, each counter of a
member is taken once, and they rise. -/
theorem fresh_once (C : Crypto) (b : Boot) (l : List Ev) (I : Finset (Blob 8))
    (hI : I.card ≤ nPeer) (hfrom : From I ((start C b).run C l)) :
    (allTaken (era ((start C b).run C l).out)).Nodup ∧
      ∀ id, (taken id (era ((start C b).run C l).out)).Pairwise (· < ·) := by
  have hrising := (safe_run C l _ (safe_start C b) I hI hfrom).rising
  exact ⟨nodup_allTaken hrising, hrising⟩

/-- The sender of an authentic packet. -/
def sender : Out → Option (Blob 8)
  | .fresh id _ _ => some id
  | _ => none

theorem from_of_senders {I : Finset (Blob 8)}
    (h : ∀ id ∈ (era s.out).filterMap sender, id ∈ I) : From I s :=
  fun id _ _ hmem => h id (mem_filterMap.mpr ⟨_, hmem, rfl⟩)

/-- A claim of the member all of whose id is `2`. -/
def claimOfTwo (c : UInt64) : Bytes :=
  claimBytes .clear (.fill 32 9) 7 (.fill 8 2) c (.zero 8) 5 0 0

/-- A network is started, and a claim comes, once more, and then a new one. -/
def replayRun : List Ev :=
  [.tick (.plain ⟨6000, pos_6000⟩),
    .packet (claimOfTwo 3) ⟨6001, pos_6001⟩ 0 (.zero 24),
    .packet (claimOfTwo 3) ⟨6002, pos_6002⟩ 0 (.zero 24),
    .packet (claimOfTwo 4) ⟨6003, pos_6003⟩ 0 (.zero 24)]

theorem fresh_once_replayRun :
    taken (.fill 8 2) (era ((start .clear (.plain 1)).run .clear replayRun).out) = [3, 4] ∧
    (allTaken (era ((start .clear (.plain 1)).run .clear replayRun).out)).Nodup ∧
      ∀ id, (taken id (era ((start .clear (.plain 1)).run .clear replayRun).out)).Pairwise
        (· < ·) :=
  ⟨by decide +kernel, fresh_once .clear (.plain 1) replayRun {.fill 8 2} (by decide)
    (from_of_senders (by decide +kernel))⟩

end Hassmic.Arb
