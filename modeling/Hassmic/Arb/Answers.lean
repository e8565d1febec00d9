import Mathlib.Algebra.BigOperators.Group.Finset.Basic
import Hassmic.Lib.Runs
import Hassmic.Arb.Moves

/-!
# Answers die out

A member answers the beacon of one it does not know, and every beacon that greets.
An answer is a beacon too, but it never greets.  So what is still to be answered is
at most one beacon for each member and each other it does not know, and each greeting
once for each member that has not heard it: every answer is paid from that.

## Main definitions

* `Net`, `Net.step` — the Echos of a network.
* `owed`, `Net.owed` — what is still to be answered.
* `answers`, `greetings` — the answers and the greetings of a run.

## Main results

* `answers_le` — the answers of a run are no more than its greetings times the members
  and one for each pair of members.
-/

namespace Hassmic.Arb

open Wire Function List Option
open Fintype (card)
open scoped Slots

/-! ### Networks -/

/-- The Echos of a network. -/
abbrev Net (ι : Type*) := ι → St

section

variable {ι : Type*} [DecidableEq ι]

/-- Something happens at one Echo. -/
def Net.step (C : Crypto) (w : Net ι) (x : ι × Ev) : Net ι :=
  update w x.1 ((w x.1).step C x.2)

end

/-- The packets an Echo sent. -/
def sentBy (s : St) : List Bytes := s.out.filterMap sentOf

theorem sentBy_append {s t : St} {l : List Out} (h : t.out = s.out ++ l) :
    sentBy t = sentBy s ++ l.filterMap sentOf := by
  rw [sentBy, h, filterMap_append, ← sentBy]

/-! ### Greetings -/

/-- The counter of a greeting: a member's beacon that asks all for an answer. -/
def greetingOf (p : Bytes) : Option UInt64 := do
  let h ← readHead p
  let b ← readBeacon h.2
  let m ← readMember b.2
  if h.1 = tBeacon ∧ m.2 &&& fHello ≠ 0 then some m.1 else none

/-- The greetings an Echo sent. -/
def greetingsBy (s : St) : List UInt64 := (sentBy s).filterMap greetingOf

theorem greetingOf_beaconBytes (C : Crypto) (macKey pk : Blob 32) (net : UInt64) (node : Node)
    (c : UInt64) (flags : UInt8) : greetingOf (beaconBytes C macKey pk net node c flags)
      = if validNode node.1 = true ∧ flags &&& fHello ≠ 0 then some c else none := by
  obtain ⟨-, l, r, hhead, hbeacon, hmember⟩ := readBeacon_beaconBytes C macKey pk net node c flags
  unfold greetingOf
  rw [hhead]
  simp only [bind_eq_bind, bind_some]
  rw [hbeacon]
  by_cases hvalid : validNode node.1 = true
  · rw [if_pos hvalid, bind_some, hmember]
    simp [hvalid]
  · rw [if_neg hvalid, if_neg (by simp [hvalid])]
    rfl

/-! ### What one Echo does with a beacon -/

namespace St

variable (C : Crypto) (s : St)

theorem sentBy_nextCtr : sentBy s.nextCtr = sentBy s := by
  unfold nextCtr
  simp only
  split
  · exact (sentBy_append (l := [.saved _]) rfl).trans (append_nil _)
  · rfl

/-- An answer is one beacon, which does not greet. -/
theorem sentBy_answer (hnet : s.inNet = true) (now : ℤ) :
    ∃ p, sentBy (s.beacon C true now) = sentBy s ++ [p] ∧ greetingOf p = none := by
  unfold beacon
  rw [if_pos hnet]
  refine ⟨beaconBytes C s.nextCtr.macKey s.nextCtr.pk s.nextCtr.netId s.nextCtr.node s.nextCtr.ctr
    (s.beaconFlags true now), ?_, ?_⟩
  · rw [← s.sentBy_nextCtr]
    exact sentBy_append (l := [.sent _]) rfl
  · rw [greetingOf_beaconBytes, if_neg]
    rintro ⟨-, hhello⟩
    exact hhello (s.beaconFlags_answer now)

theorem out_notePeer (id : Blob 8) (nd : Node) (ip : UInt32) (flags : UInt8) :
    (s.notePeer id nd ip flags).out = s.out := by
  unfold notePeer peer
  simp only
  split <;> rfl

/-- A member with a slot is known, unless its entry has expired. -/
theorem known_of_ctrOf {id : Blob 8} {now : ℤ} (hold : ∀ k, Used s k →
    ago (s.peers k).seen now s.peerTtlMs = true) (h : ctrOf s id ≠ none) :
    s.known id now = true := by
  have hholds : ∃ k, s.holds k id = true := by
    by_contra hno
    refine h (ctrOf_eq_none.mpr fun k => ?_)
    exact Bool.eq_false_iff.mpr fun hk => hno ⟨k, hk⟩
  obtain ⟨k, hk⟩ := hholds
  obtain ⟨hused, hid⟩ := holds_iff.mp hk
  rw [known, List.any_eq_true]
  exact ⟨k, mem_finRange k, by simp [hid, hold k hused]⟩

end St

/-- **What an Echo does with the beacon of a member**: nothing to its table and no answer, or
the counter is taken and there is at most one answer, to one it did not know or that greets. -/
structure Hears (C : Crypto) (I : Finset (Blob 8)) (s t : St) (id : Blob 8) (c : UInt64)
    (greets : Prop) : Prop where
  core : t.core = s.core
  table : Table I t
  sends : ∀ p ∈ sentBy t, p ∈ sentBy s ∨ ∃ k, Sends C s.core k p
  greetings : greetingsBy t = greetingsBy s
  paid : (sentBy t = sentBy s ∧ ∀ id', ctrOf t id' = ctrOf s id') ∨
    ((ctrOf s id).getD 0 < c ∧ (∀ id', ctrOf t id' = if id' = id then some c else ctrOf s id') ∧
      ((sentBy t).length = (sentBy s).length ∨
        (sentBy t).length = (sentBy s).length + 1 ∧ (ctrOf s id = none ∨ greets)))

section Hear

variable {C : Crypto} {I : Finset (Blob 8)} {s : St}

theorem hears_refl (h : Table I s) (id : Blob 8) (c : UInt64) (greets : Prop) :
    Hears C I s s id c greets :=
  ⟨rfl, h, fun _ hp => .inl hp, rfl, .inl ⟨rfl, fun _ => rfl⟩⟩

theorem sends_of_frame {K : Set Kind} {t : St} (h : Frame C K s t) :
    ∀ p ∈ sentBy t, p ∈ sentBy s ∨ ∃ k, Sends C s.core k p := by
  obtain ⟨l, hout, hadds⟩ := h.out
  intro p hp
  rw [sentBy_append hout, mem_append] at hp
  refine hp.imp_right fun hp => ?_
  cases hadds _ (mem_filterMap_sentOf.mp hp) with
  | sent hk h => exact ⟨_, h⟩

/-- A member's beacon whose tag is good. -/
theorem hears_onMember (h : Table I s) (hI : I.card ≤ nPeer) (hnet : s.inNet = true) (b : BeaconPkt)
    (hid : b.pub.first 8 (by omega) ∈ I) (c : UInt64) (flags : UInt8) (now : Instant) (ip : UInt32)
    (hold : ∀ k, Used s k → ago (s.peers k).seen now.1 s.peerTtlMs = true) :
    Hears C I s (s.onMember C b c flags now.1 ip) (b.pub.first 8 (by omega)) c
      (flags &&& fHello ≠ 0) := by
  have hdrop : Table I (s.dropCand b.pub) := ⟨h.seen, h.mem, h.inj⟩
  obtain ⟨htaken, htable, hctr⟩ := fresh_spec hdrop hI hid c now
  obtain ⟨hcore, hout⟩ := fresh_frame (s.dropCand b.pub) (b.pub.first 8 (by omega)) c now.1
  have hsent := sentBy_append hout
  rw [show [Out.fresh _ _ _].filterMap sentOf = [] from rfl, append_nil] at hsent
  have hsent' : sentBy ((s.dropCand b.pub).fresh (b.pub.first 8 (by omega)) c now.1).2 = sentBy s :=
    hsent
  unfold St.onMember
  simp only
  split
  · next hfresh =>
    -- taken: the entry is that of its sender, and there may be an answer
    obtain ⟨k, hk⟩ := (s.dropCand b.pub).holds_fresh _ _ _ hfresh
    set r := ((s.dropCand b.pub).fresh (b.pub.first 8 (by omega)) c now.1).2 with hr
    have hstill := St.still_notePeer C r hk b.nd ip flags
    obtain ⟨htable', hctr'⟩ := table_same hstill.peers htable
    have hnote : sentBy (r.notePeer (b.pub.first 8 (by omega)) b.nd ip flags) = sentBy s := by
      rw [← hsent', sentBy, St.out_notePeer, ← sentBy]
    have hmap : ∀ id', ctrOf (r.notePeer (b.pub.first 8 (by omega)) b.nd ip flags) id' =
        if id' = b.pub.first 8 (by omega) then some c else ctrOf s id' := by
      intro id'
      rw [hctr', hctr]
      simp only [hfresh, true_and]
      rfl
    have hcore' : (r.notePeer (b.pub.first 8 (by omega)) b.nd ip flags).core = s.core :=
      hstill.core.trans hcore
    split
    · next hanswer =>
      have hin : (r.notePeer (b.pub.first 8 (by omega)) b.nd ip flags).inNet = true :=
        (congrArg Core.inNet hcore').trans hnet
      obtain ⟨p, hp, hquiet⟩ := St.sentBy_answer C _ hin now.1
      have hframe := St.frame_beacon C _ hin true now.1 (K := {Kind.answer}) rfl
      refine ⟨hframe.core.trans hcore', ?_, fun q hq => ?_, ?_,
        .inr ⟨htaken.mp hfresh, ?_, .inr ⟨?_, ?_⟩⟩⟩
      · exact (table_same (fun i => by rw [hframe.peers]; exact ⟨rfl, rfl, rfl⟩) htable').1
      · rw [← hnote, ← hcore']
        exact sends_of_frame hframe q hq
      · rw [greetingsBy, hp, filterMap_append, hnote, ← greetingsBy]
        simp [hquiet]
      · intro id'
        rw [(table_same (fun i => by rw [hframe.peers]; exact ⟨rfl, rfl, rfl⟩) htable').2, hmap]
      · rw [hp, length_append, hnote]
        rfl
      · refine hanswer.imp (fun hunknown => ?_) id
        by_contra hne
        rw [s.known_of_ctrOf hold hne] at hunknown
        exact absurd hunknown (by simp)
    · exact ⟨hcore', htable', fun q hq =>
        .inl (hnote ▸ hq), by rw [greetingsBy, hnote, ← greetingsBy],
          .inr ⟨htaken.mp hfresh, hmap, .inl (by rw [hnote])⟩⟩
  · next hstale =>
    refine ⟨hcore, htable, fun q hq =>
      .inl (hsent' ▸ hq), by rw [greetingsBy, hsent', ← greetingsBy], .inl ⟨hsent', fun id' => ?_⟩⟩
    rw [hctr, if_neg fun hh => hstale hh.1]
    rfl

end Hear

/-! ### A network -/

section Network

variable {ι : Type*} [Fintype ι] [DecidableEq ι]

/-- The other members of a network. -/
def others (w : Net ι) (i : ι) : Finset (Blob 8) := (Finset.univ.erase i).image fun j => (w j).id

/-- **The members of one network**: they share its key, and each counts only others. -/
structure Members (w : Net ι) : Prop where
  inNet : ∀ i, (w i).inNet = true
  netId : ∀ i j, (w i).netId = (w j).netId
  macKey : ∀ i j, (w i).macKey = (w j).macKey
  ids : Function.Injective fun i => (w i).id
  table : ∀ i, Table (others w i) (w i)

/-- The members of a network that sent only what members send. -/
structure Sound (C : Crypto) (w : Net ι) : Prop extends Members w where
  sends : ∀ i, ∀ p ∈ sentBy (w i), ∃ k, Sends C (w i).core k p

/-- What happens in a network: a turn of a loop, or a beacon that a member sent is heard, while
no entry of the table has expired. -/
def Heeds (w : Net ι) (x : ι × Ev) : Prop :=
  match x.2 with
  | .packet p now _ _ => (∃ j, p ∈ sentBy (w j)) ∧ Typed tBeacon p ∧
      ∀ k, Used (w x.1) k → ago ((w x.1).peers k).seen now.1 (w x.1).peerTtlMs = true
  | .tick _ => True
  | _ => False

/-- The beacons sent in answer to what happens. -/
def answersOf (C : Crypto) (w : Net ι) (x : ι × Ev) : ℕ :=
  match x.2 with
  | .packet .. => (sentBy (w.step C x x.1)).length - (sentBy (w x.1)).length
  | _ => 0

/-- The greetings sent of an Echo's own accord. -/
def greetingsOf (C : Crypto) (w : Net ι) (x : ι × Ev) : ℕ :=
  match x.2 with
  | .tick _ => (greetingsBy (w.step C x x.1)).length - (greetingsBy (w x.1)).length
  | _ => 0

/-- What `i` may still answer of the beacons of `j`: one if it does not know it, and the
greetings it has not heard. -/
def owed (w : Net ι) (i j : ι) : ℕ :=
  (if ctrOf (w i) (w j).id = none then 1 else 0) +
    (greetingsBy (w j)).countP fun c => decide ((ctrOf (w i) (w j).id).getD 0 < c)

/-- What may still be answered. -/
def Net.owed (w : Net ι) : ℕ := ∑ i, ∑ j ∈ Finset.univ.erase i, Arb.owed w i j

variable {w w' : Net ι} {C : Crypto}

theorem others_congr (h : ∀ i, (w' i).core = (w i).core) (i : ι) :
    others w' i = others w i := by
  have hid : (fun j => (w' j).id) = fun j => (w j).id :=
    funext fun j => congrArg Core.id (h j)
  rw [others, hid, others]

theorem card_others_le (w : Net ι) (hcard : card ι ≤ nPeer + 1) (i : ι) :
    (others w i).card ≤ nPeer := by
  have h : (others w i).card ≤ (Finset.univ.erase i).card := Finset.card_image_le
  rw [Finset.card_erase_of_mem (Finset.mem_univ i), Finset.card_univ] at h
  omega

variable {i j : ι}

theorem mem_others (w : Net ι) (h : j ≠ i) : (w j).id ∈ others w i :=
  Finset.mem_image.mpr ⟨j, Finset.mem_erase.mpr ⟨h, Finset.mem_univ j⟩, rfl⟩

/-- The cores stay, so the members do. -/
theorem Sound.of_core (hw : Sound C w)
    (hcore : ∀ i, (w' i).core = (w i).core) (htable : ∀ i, Table (others w i) (w' i))
    (hsends : ∀ i, ∀ p ∈ sentBy (w' i), p ∈ sentBy (w i) ∨ ∃ k, Sends C (w i).core k p) :
    Sound C w' := by
  have hin : ∀ i, (w' i).inNet = (w i).inNet := fun i => congrArg Core.inNet (hcore i)
  have hid : ∀ i, (w' i).netId = (w i).netId := fun i => congrArg Core.netId (hcore i)
  have hkey : ∀ i, (w' i).macKey = (w i).macKey := fun i => congrArg Core.macKey (hcore i)
  refine ⟨⟨fun i => (hin i).trans (hw.inNet i), fun i j => ?_, fun i j => ?_, fun i j h => ?_,
    fun i => ?_⟩, fun i p hp => ?_⟩
  · rw [hid, hid]
    exact hw.netId i j
  · rw [hkey, hkey]
    exact hw.macKey i j
  · apply hw.ids
    exact ((congrArg Core.id (hcore i)).symm.trans h).trans (congrArg Core.id (hcore j))
  · rw [others_congr hcore]
    exact htable i
  · rw [hcore i]
    rcases hsends i p hp with hp | hp
    · exact hw.sends i p hp
    · exact hp

/-- A beacon that a member sent. -/
theorem Sound.beacon (hw : Sound C w) {p : Bytes}
    (hp : p ∈ sentBy (w j)) (htype : Typed tBeacon p) : ∃ n flags,
    p = beaconBytes C (w j).macKey (w j).pk (w j).netId (w j).node n flags := by
  obtain ⟨k, hk⟩ := hw.sends j p hp
  have hkind := hk.typed.inj htype
  cases hk with
  | beacon n flags _ => exact ⟨n, flags, rfl⟩
  | answer n flags _ _ => exact ⟨n, flags, rfl⟩
  | loner hnet => exact absurd ((hw.inNet j).symm.trans hnet) (by simp)
  | _ => exact absurd hkind (by decide)

/-- **A beacon is heard.** -/
theorem hears_beacon (hw : Sound C w) (hcard : card ι ≤ nPeer + 1) {p : Bytes}
    (hp : p ∈ sentBy (w j)) (htype : Typed tBeacon p) (now : Instant) (ip : UInt32)
    (nonce : Blob 24)
    (hold : ∀ k, Used (w i) k → ago ((w i).peers k).seen now.1 (w i).peerTtlMs = true) :
    ∃ c, Hears C (others w i) (w i) ((w i).step C (.packet p now ip nonce)) (w j).id c
      (c ∈ greetingsBy (w j)) ∧ (j = i → (w i).step C (.packet p now ip nonce) = w i) := by
  obtain ⟨n, flags, rfl⟩ := hw.beacon hp htype
  obtain ⟨htag, l, r, hhead, hbeacon, hmember⟩ :=
    readBeacon_beaconBytes C (w j).macKey (w j).pk (w j).netId (w j).node n flags
  have hgreet := greetingOf_beaconBytes C (w j).macKey (w j).pk (w j).netId (w j).node n flags
  set p := beaconBytes C (w j).macKey (w j).pk (w j).netId (w j).node n flags with hpdef
  have hstep : (w i).step C (.packet p now ip nonce) = (w i).onBeacon C p l now.1 ip nonce := by
    show (w i).onPacket C p now.1 ip nonce = _
    rw [St.onPacket, hhead]
    rfl
  refine ⟨n, ?_⟩
  rw [hstep]
  unfold St.onBeacon
  rw [hbeacon]
  by_cases hvalid : validNode (w j).node.1 = true
  · rw [if_pos hvalid]
    simp only
    by_cases hji : j = i
    · -- our own
      subst hji
      rw [if_pos rfl]
      exact ⟨hears_refl (hw.table j) _ _ _, fun _ => rfl⟩
    have hpk : (w j).pk ≠ (w i).pk := by
      intro heq
      refine hji (hw.ids ?_)
      show (w j).pk.first 8 _ = (w i).pk.first 8 _
      rw [heq]
    rw [if_neg hpk, if_pos ⟨hw.inNet i, hw.netId j i⟩, hmember]
    simp only
    rw [hw.macKey i j, if_pos htag]
    refine ⟨?_, fun h => absurd h hji⟩
    have hhear := hears_onMember (C := C) (hw.table i) (card_others_le w hcard i) (hw.inNet i)
      ⟨(w j).pk, (w j).netId, (w j).node⟩ (mem_others w hji) n flags now ip hold
    refine ⟨hhear.core, hhear.table, hhear.sends, hhear.greetings, hhear.paid.imp_right fun h => ?_⟩
    refine ⟨h.1, h.2.1, h.2.2.imp_right fun h => ⟨h.1, h.2.imp_right fun hhello => ?_⟩⟩
    exact mem_filterMap.mpr ⟨p, hp, by rw [hgreet, if_pos ⟨hvalid, hhello⟩]⟩
  · rw [if_neg hvalid]
    exact ⟨hears_refl (hw.table i) _ _ _, fun _ => rfl⟩

/-! ### Every answer is paid for -/

/-- Fewer counters are above a higher one. -/
theorem countP_above {a c : UInt64} (hac : a < c) (l : List UInt64) :
    l.countP (fun x => decide (c < x)) ≤ l.countP (fun x => decide (a < x)) ∧
    (c ∈ l → l.countP (fun x => decide (c < x)) + 1 ≤ l.countP (fun x => decide (a < x))) := by
  induction l with
  | nil => simp
  | cons x l ih =>
    obtain ⟨hle, hmem⟩ := ih
    have himp : c < x → a < x := UInt64.lt_trans hac
    rw [countP_cons, countP_cons]
    by_cases hc : c < x
    · have ha := himp hc
      simp only [hc, ha, decide_true, if_true]
      refine ⟨by omega, fun h => ?_⟩
      have hne : c ≠ x := UInt64.ne_of_lt hc
      have := hmem ((mem_cons.mp h).resolve_left hne)
      omega
    · by_cases ha : a < x
      · simp only [hc, ha, decide_true, decide_false, if_true]
        exact ⟨by simp; omega, fun _ => by simp; omega⟩
      · simp only [hc, ha, decide_false]
        refine ⟨by simpa using hle, fun h => ?_⟩
        have hne : c ≠ x := by
          rintro rfl
          exact ha hac
        simpa using hmem ((mem_cons.mp h).resolve_left hne)

/-- A change of the account, pair by pair. -/
theorem owed_add_le (hji : j ≠ i) {n : ℕ}
    (h : ∀ a b, owed w' a b + (if a = i ∧ b = j then n else 0) ≤ owed w a b) :
    n + w'.owed ≤ w.owed := by
  have hsum : ∑ a, ∑ b ∈ Finset.univ.erase a, (if a = i ∧ b = j then n else 0) = n := by
    rw [Finset.sum_eq_single i, Finset.sum_eq_single j]
    · simp
    · intro b _ hb
      simp [hb]
    · intro hmem
      exact absurd (Finset.mem_erase.mpr ⟨hji, Finset.mem_univ j⟩) hmem
    · intro a _ ha
      exact Finset.sum_eq_zero fun b _ => by simp [ha]
    · intro hmem
      exact absurd (Finset.mem_univ i) hmem
  calc n + w'.owed
      = ∑ a, ∑ b ∈ Finset.univ.erase a, (owed w' a b + if a = i ∧ b = j then n else 0) := by
        simp only [Finset.sum_add_distrib, hsum, Net.owed]
        omega
    _ ≤ w.owed := Finset.sum_le_sum fun a _ => Finset.sum_le_sum fun b _ => h a b

theorem owed_congr (hid : ∀ i, (w' i).id = (w i).id)
    (hctr : ∀ i id, ctrOf (w' i) id = ctrOf (w i) id)
    (hgreet : ∀ i, greetingsBy (w' i) = greetingsBy (w i)) : w'.owed = w.owed := by
  refine Finset.sum_congr rfl fun a _ => Finset.sum_congr rfl fun b _ => ?_
  rw [owed, hid, hctr, hgreet, owed]

omit [Fintype ι] in
/-- What holds of the Echo that something happens at, and of the others, holds of all. -/
theorem forall_update {t : St} (p : ι → St → Prop) (hself : p i t)
    (hother : ∀ k, p k (w k)) (k : ι) : p k (update w i t k) := by
  by_cases hk : k = i
  · subst hk
    rw [update_self]
    exact hself
  · rw [update_of_ne hk]
    exact hother k

/-- **A beacon is heard**: an answer is paid for. -/
theorem heard_owed (hw : Sound C w) {t : St} {c : UInt64}
    (hhear : Hears C (others w i) (w i) t (w j).id c (c ∈ greetingsBy (w j)))
    (hown : j = i → t = w i) : Sound C (update w i t) ∧
    (sentBy t).length - (sentBy (w i)).length + Net.owed (update w i t) ≤ w.owed := by
  have hcore : ∀ k, (update w i t k).core = (w k).core :=
    forall_update (fun k u => u.core = (w k).core) hhear.core fun _ => rfl
  have hid : ∀ k, (update w i t k).id = (w k).id := fun k => congrArg Core.id (hcore k)
  have hgreet : ∀ k, greetingsBy (update w i t k) = greetingsBy (w k) :=
    forall_update (fun k u => greetingsBy u = greetingsBy (w k)) hhear.greetings fun _ => rfl
  have hsound : Sound C (update w i t) := by
    refine hw.of_core hcore ?_ ?_
    · exact forall_update (fun k u => Table (others w k) u) hhear.table hw.table
    · exact forall_update
        (fun k u => ∀ p ∈ sentBy u, p ∈ sentBy (w k) ∨ ∃ k', Sends C (w k).core k' p)
        hhear.sends fun _ _ hp => .inl hp
  refine ⟨hsound, ?_⟩
  have hquiet : sentBy t = sentBy (w i) → (∀ id, ctrOf t id = ctrOf (w i) id) →
      (sentBy t).length - (sentBy (w i)).length + Net.owed (update w i t) ≤ w.owed := by
    intro hsent hctr
    rw [hsent, Nat.sub_self, Nat.zero_add]
    exact (owed_congr hid (forall_update (fun k u => ∀ id, ctrOf u id = ctrOf (w k) id) hctr
      fun _ _ => rfl) hgreet).le
  rcases hhear.paid with ⟨hsent, hctr⟩ | ⟨habove, hctr, hpaid⟩
  · exact hquiet hsent hctr
  by_cases hji : j = i
  · exact hquiet (by rw [hown hji]) fun id => by rw [hown hji]
  refine owed_add_le hji fun a b => ?_
  rw [owed, hid, hgreet]
  by_cases ha : a = i
  · subst ha
    rw [update_self, hctr]
    by_cases hb : b = j
    · -- the pair that pays
      subst hb
      obtain ⟨hle, hstrict⟩ := countP_above habove (greetingsBy (w b))
      rw [if_pos rfl, if_neg (by simp), if_pos ⟨rfl, rfl⟩, getD_some, owed]
      rcases hpaid with hsame | ⟨hone, hnone | hgreets⟩
      · rw [hsame]
        omega
      · rw [hone, if_pos hnone]
        omega
      · have := hstrict hgreets
        rw [hone]
        omega
    · have hne : (w b).id ≠ (w j).id := fun h => hb (hw.ids h)
      rw [if_neg hne, if_neg (fun h => hb h.2 : ¬ (a = a ∧ b = j)), owed]
      omega
  · rw [update_of_ne ha, if_neg (fun h => ha h.1 : ¬ (a = i ∧ b = j)), owed]
    omega

/-- **A turn of a loop**: its greetings are owed by all others. -/
theorem turn_owed (hw : Sound C w) {t : St} {K : Set Kind}
    (hframe : Frame C K (w j) t) : Sound C (update w j t) ∧
    Net.owed (update w j t)
      ≤ w.owed + ((greetingsBy t).length - (greetingsBy (w j)).length) * card ι := by
  have hcore : ∀ k, (update w j t k).core = (w k).core :=
    forall_update (fun k u => u.core = (w k).core) hframe.core fun _ => rfl
  have hpeers : ∀ k i, ((update w j t k).peers i).Same ((w k).peers i) :=
    forall_update (fun k u => ∀ i, (u.peers i).Same ((w k).peers i))
      (fun i => by rw [hframe.peers]; exact ⟨rfl, rfl, rfl⟩) fun _ _ => ⟨rfl, rfl, rfl⟩
  have hid : ∀ k, (update w j t k).id = (w k).id := fun k => congrArg Core.id (hcore k)
  have hsound : Sound C (update w j t) := by
    refine hw.of_core hcore (fun k => (table_same (hpeers k) (hw.table k)).1) ?_
    exact forall_update
      (fun k u => ∀ p ∈ sentBy u, p ∈ sentBy (w k) ∨ ∃ k', Sends C (w k).core k' p)
      (sends_of_frame hframe) fun _ _ hp => .inl hp
  refine ⟨hsound, ?_⟩
  obtain ⟨l, hout, -⟩ := hframe.out
  have hgreet : greetingsBy t = greetingsBy (w j) ++ (l.filterMap sentOf).filterMap greetingOf := by
    rw [greetingsBy, sentBy_append hout, filterMap_append, ← greetingsBy]
  generalize (l.filterMap sentOf).filterMap greetingOf = g at hgreet
  have hgain : (greetingsBy t).length - (greetingsBy (w j)).length = g.length := by
    rw [hgreet, length_append]
    omega
  have hpair : ∀ a b,
      owed (update w j t) a b ≤ owed w a b + if b = j then g.length else 0 := by
    intro a b
    rw [owed, hid, (table_same (hpeers a) (hw.table a)).2, owed]
    by_cases hb : b = j
    · subst hb
      rw [update_self, hgreet, countP_append, if_pos rfl]
      have : g.countP (fun c => decide ((ctrOf (w a) (w b).id).getD 0 < c)) ≤ g.length :=
        countP_le_length
      omega
    · rw [update_of_ne hb]
      omega
  have hrow : ∀ a, ∑ b ∈ Finset.univ.erase a, (if b = j then g.length else 0) ≤ g.length := by
    intro a
    rw [Finset.sum_ite_eq']
    split <;> omega
  calc Net.owed (update w j t)
      ≤ ∑ a, ∑ b ∈ Finset.univ.erase a, (owed w a b + if b = j then g.length else 0) :=
        Finset.sum_le_sum fun a _ => Finset.sum_le_sum fun b _ => hpair a b
    _ = w.owed + ∑ a, ∑ b ∈ Finset.univ.erase a, (if b = j then g.length else 0) := by
        simp only [Finset.sum_add_distrib, Net.owed]
    _ ≤ w.owed + ∑ _a : ι, g.length := by
        have := Finset.sum_le_sum fun a (_ : a ∈ Finset.univ) => hrow a
        omega
    _ = w.owed + ((greetingsBy t).length - (greetingsBy (w j)).length) * card ι := by
        rw [Finset.sum_const, Finset.card_univ, smul_eq_mul, hgain, Nat.mul_comm]

/-- The beacons sent in answer over a run. -/
def answers (C : Crypto) : Net ι → List (ι × Ev) → ℕ := Runs.total (Net.step C) (answersOf C)

/-- The greetings sent over a run. -/
def greetings (C : Crypto) : Net ι → List (ι × Ev) → ℕ := Runs.total (Net.step C) (greetingsOf C)

theorem owed_le_of_silent (h : ∀ i, sentBy (w i) = []) :
    w.owed ≤ card ι * (card ι - 1) := by
  have hone : ∀ a b, owed w a b ≤ 1 := by
    intro a b
    rw [owed, greetingsBy, h b]
    split <;> simp
  calc w.owed ≤ ∑ a : ι, ∑ _b ∈ Finset.univ.erase a, 1 :=
        Finset.sum_le_sum fun a _ => Finset.sum_le_sum fun b _ => hone a b
    _ = card ι * (card ι - 1) := by
        simp [Finset.card_erase_of_mem]

/-- **Answers die out.**  In a network whose members fit the table, with its beacons heard in
any order, any number of times or not at all, while no entry expires: the answers of a run
are no more than its greetings times the members and one for each pair of members. -/
theorem answers_le (C : Crypto) (w : Net ι) (hw : Members w) (hcard : card ι ≤ nPeer + 1)
    (hsilent : ∀ i, sentBy (w i) = []) (l : List (ι × Ev)) (hl : Runs.Each (Net.step C) Heeds w l) :
    answers C w l ≤ greetings C w l * card ι + card ι * (card ι - 1) := by
  have hstep : ∀ (w : Net ι) (x : ι × Ev), Sound C w → Heeds w x → Sound C (w.step C x) ∧
      answersOf C w x + (w.step C x).owed ≤ w.owed + greetingsOf C w x * card ι := by
    rintro w ⟨i, ev⟩ hw hx
    cases ev with
    | packet p now ip nonce =>
      obtain ⟨⟨j, hp⟩, htype, hold⟩ := hx
      obtain ⟨c, hhear, hown⟩ := hears_beacon hw hcard hp htype now ip nonce hold
      obtain ⟨hsound, hle⟩ := heard_owed hw hhear hown
      refine ⟨hsound, le_trans ?_ (hle.trans (Nat.le_add_right _ _))⟩
      show (sentBy (w.step C _ i)).length - _ + _ ≤ _
      rw [Net.step, update_self]
    | tick e =>
      obtain ⟨hsound, hle⟩ := turn_owed hw ((w i).frame_tick C e (hw.inNet i))
      refine ⟨hsound, ?_⟩
      show 0 + _ ≤ _ + ((greetingsBy (w.step C _ i)).length - _) * _
      rw [Net.step, update_self, Nat.zero_add]
      exact hle
    | _ => exact absurd hx (by simp [Heeds])
  have hsound : Sound C w := ⟨hw, fun i p hp => by rw [hsilent i] at hp; exact absurd hp (by simp)⟩
  have htotal := Runs.total_add_le (I := Sound C) Net.owed
    (fun w x hw hx => (hstep w x hw hx).1) (fun w x hw hx => (hstep w x hw hx).2) hsound hl
  have hgain : ∀ (w : Net ι) (l : List (ι × Ev)),
      Runs.total (Net.step C) (fun w x => greetingsOf C w x * card ι) w l
        = greetings C w l * card ι := by
    intro w l
    unfold greetings
    induction l generalizing w with
    | nil => simp [Runs.total]
    | cons x l ih => rw [Runs.total, ih, Runs.total, Nat.add_mul]
  rw [hgain] at htotal
  have hfirst := owed_le_of_silent hsilent
  show Runs.total (Net.step C) (answersOf C) w l ≤ _
  omega

end Network

/-! ### Two members on a fixed run -/

theorem node_a : ([0x61] : Bytes).length < nLen ∧ Byte.nul ∉ ([0x61] : Bytes) := by decide

/-- Two Echos that took on the same key, before either sent anything. -/
def pairOfMembers : Net (Fin 2) := fun i =>
  { start .clear (.plain (if i = 0 then 1 else 2)) with
    inNet := true, netId := 7, node := ⟨[0x61], node_a⟩, helloUntil := 100000 }

theorem members_pairOfMembers : Members pairOfMembers := by
  refine ⟨fun i => rfl, fun _ _ => rfl, fun i j => ?_, fun i j h => ?_, fun i => ?_⟩
  · revert i j
    decide
  · revert i j
    decide
  · refine table_empty (fun k => ?_) _
    show ((start .clear (.plain (if i = 0 then 1 else 2))).peers k).seen = 0
    rw [start_peers]

/-- The greeting of the first. -/
def greeting : Bytes :=
  beaconBytes .clear (.zero 32) (.fill 32 1) 7 ⟨[0x61], node_a⟩ 1 fHello

/-- The first greets, and the second hears it twice. -/
def greetRun : List (Fin 2 × Ev) :=
  [(0, .tick (.plain ⟨30000, by decide⟩)), (1, .packet greeting ⟨30001, by decide⟩ 0 (.zero 24)),
    (1, .packet greeting ⟨30002, by decide⟩ 0 (.zero 24))]

theorem heeds_greetRun : Runs.Each (Net.step .clear) Heeds pairOfMembers greetRun := by
  refine ⟨trivial, ⟨⟨0, by decide +kernel⟩, typed_beaconBytes .., by decide +kernel⟩,
    ⟨⟨0, by decide +kernel⟩, typed_beaconBytes .., by decide +kernel⟩, trivial⟩

theorem answers_le_greetRun : answers .clear pairOfMembers greetRun = 1 ∧
    answers .clear pairOfMembers greetRun
      ≤ greetings .clear pairOfMembers greetRun * card (Fin 2)
        + card (Fin 2) * (card (Fin 2) - 1) :=
  ⟨by decide +kernel, answers_le .clear pairOfMembers members_pairOfMembers (by decide)
    (by decide +kernel) greetRun heeds_greetRun⟩

end Hassmic.Arb
