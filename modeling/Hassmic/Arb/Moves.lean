import Hassmic.Arb.Peers

/-!
# What a step can do

Three things change who an Echo counts and which network it is in: an authentic
packet is checked against the counters, a key is taken on, and nothing else.
Every step of an Echo is a sequence of such moves with moves between them that
touch neither.

## Main definitions

* `Still` — a move that changes neither the network nor whom an Echo counts.
* `Moves`, `Reaches` — the moves of a step, and sequences of them.
* `TakesZero` — the step that takes on a key for the network `0`.

## Main results

* `step_reaches` — every step is a sequence of moves.
-/

namespace Hassmic.Arb

open Wire Function

/-- What a move other than `fresh` and `adopt` may add to the history. -/
inductive Plain (C : Crypto) (c : Core) : Out → Prop
  | adds {o : Out} (h : Adds C c Set.univ o) : Plain C c o
  | kept (k : Claim) : Plain C c (.kept k)
  | claimed (due : ℤ) : Plain C c (.claimed due)
  | decided (win : Bool) : Plain C c (.decided win)

/-- **A move that changes neither the network nor whom an Echo counts.** -/
structure Still (C : Crypto) (s t : St) : Prop where
  core : t.core = s.core
  peers : ∀ i, (t.peers i).Same (s.peers i)
  out : ∃ l, t.out = s.out ++ l ∧ ∀ o ∈ l, Plain C s.core o

namespace Still

variable {C : Crypto} {s t u : St}

theorem of_eq (h : (t.core, t.peers, t.out) = (s.core, s.peers, s.out)) : Still C s t := by
  simp only [Prod.mk.injEq] at h
  obtain ⟨hcore, hpeers, hout⟩ := h
  exact ⟨hcore, fun i => by rw [hpeers]; exact ⟨rfl, rfl, rfl⟩, [], by simpa using hout, by simp⟩

theorem refl (s : St) : Still C s s := of_eq rfl

theorem of_frame {K : Set Kind} (h : Frame C K s t) : Still C s t := by
  obtain ⟨l, hl, hq⟩ := h.out
  refine ⟨h.core, fun i => by rw [h.peers]; exact ⟨rfl, rfl, rfl⟩, l, hl, fun o ho => ?_⟩
  exact .adds ((hq o ho).mono (Set.subset_univ K))

theorem trans (h₁ : Still C s t) (h₂ : Still C t u) : Still C s u := by
  obtain ⟨l₁, hl₁, hq₁⟩ := h₁.out
  obtain ⟨l₂, hl₂, hq₂⟩ := h₂.out
  refine ⟨h₂.core.trans h₁.core, fun i => ?_, l₁ ++ l₂, ?_, fun o ho => ?_⟩
  · obtain ⟨hid, hctr, hseen⟩ := h₁.peers i
    obtain ⟨hid', hctr', hseen'⟩ := h₂.peers i
    exact ⟨hid'.trans hid, hctr'.trans hctr, hseen'.trans hseen⟩
  · rw [hl₂, hl₁, List.append_assoc]
  · rcases List.mem_append.mp ho with ho | ho
    · exact hq₁ o ho
    · rw [← h₁.core]
      exact hq₂ o ho

theorem log {o : Out} (h : Plain C s.core o) : Still C s (s.log o) :=
  ⟨rfl, fun _ => ⟨rfl, rfl, rfl⟩, [o], rfl, fun o' ho' => by
    rw [List.mem_singleton.mp ho']; exact h⟩

theorem ite {p : Prop} [Decidable p] (h₁ : p → Still C s t) (h₂ : ¬ p → Still C s u) :
    Still C s (if p then t else u) := by
  split
  · next h => exact h₁ h
  · next h => exact h₂ h

end Still

/-- The moves of an Echo.  `Z` says whether a key for the network `0` may be taken. -/
inductive Moves (C : Crypto) (Z : Prop) : St → St → Prop
  | still {s t : St} (h : Still C s t) : Moves C Z s t
  | fresh (s : St) (id : Blob 8) (c : UInt64) (now : Instant) : Moves C Z s (s.fresh id c now.1).2
  | adopt (s : St) (k : Blob 32) (id : UInt64) (now : ℤ) (hlow : s.inNet = true → id < s.netId)
      (hzero : id ≠ 0 ∨ Z) : Moves C Z s (s.adopt C k id now)

/-- Sequences of moves. -/
def Reaches (C : Crypto) (Z : Prop) (s t : St) : Prop := Relation.ReflTransGen (Moves C Z) s t

namespace Reaches

variable {C : Crypto} {Z : Prop} {s t u : St}

theorem refl (s : St) : Reaches C Z s s := Relation.ReflTransGen.refl

theorem single (h : Moves C Z s t) : Reaches C Z s t := Relation.ReflTransGen.single h

theorem trans (h₁ : Reaches C Z s t) (h₂ : Reaches C Z t u) : Reaches C Z s u :=
  Relation.ReflTransGen.trans h₁ h₂

theorem still (h : Still C s t) : Reaches C Z s t := single (.still h)

theorem frame {K : Set Kind} (h : Frame C K s t) : Reaches C Z s t := still (.of_frame h)

theorem ite {p : Prop} [Decidable p] (h₁ : p → Reaches C Z s t) (h₂ : ¬ p → Reaches C Z s u) :
    Reaches C Z s (if p then t else u) := by
  split
  · next h => exact h₁ h
  · next h => exact h₂ h

end Reaches

namespace St

variable (C : Crypto) (e : Turn) (s : St)

/-! ### Packets -/

theorem frame_beacon_any (answer : Bool) (now : ℤ) :
    Frame C Set.univ s (s.beacon C answer now) := by
  cases hnet : s.inNet with
  | true => exact s.frame_beacon C hnet answer now (Set.mem_univ _)
  | false => exact s.frame_loner C hnet answer now (Set.mem_univ _)

variable {i : Fin nPeer} {Z : Prop} {K : Set Kind}

/-- A member that is counted has its slot. -/
theorem holds_peerSlot {id : Blob 8} (h : s.holds i id = true) :
    s.holds (s.peerSlot id) id = true := by
  rcases Slots.pick_spec (fun i => (s.peers i).seen != 0 && (s.peers i).id == id)
    (fun i => (s.peers i).seen) with hit | ⟨hnone, -⟩
  · exact hit
  · exact absurd h (by rw [holds, hnone i]; simp)

/-- A fresh packet's sender has a slot. -/
theorem holds_fresh (id : Blob 8) (c : UInt64) (now : Instant)
    (h : (s.fresh id c now.1).1 = true) :
    ∃ i, (s.fresh id c now.1).2.holds i id = true := by
  have hid : ((s.peer id).peers (s.peerSlot id)).id = id := by
    unfold peer
    split
    · next h =>
      unfold holds at h
      simp only [Bool.and_eq_true, beq_iff_eq] at h
      exact h.2
    · simp
  have hpos : now.1 ≠ 0 := ne_of_gt now.2
  unfold fresh at h ⊢
  simp only at h ⊢
  split at h
  · exact absurd h (by simp)
  · next hc =>
    rw [if_neg hc]
    refine ⟨s.peerSlot id, ?_⟩
    simp [holds, log, logAll, hid, hpos]

theorem peer_eq_of_holds {id : Blob 8} (h : s.holds i id = true) :
    s.peer id = s := by
  rw [peer, if_pos (s.holds_peerSlot h)]

theorem still_notePeer {id : Blob 8} (h : s.holds i id = true) (nd : Node)
    (ip : UInt32) (flags : UInt8) : Still C s (s.notePeer id nd ip flags) := by
  unfold notePeer
  rw [s.peer_eq_of_holds h]
  refine ⟨rfl, fun j => ?_, [], by simp, by simp⟩
  by_cases hj : j = s.peerSlot id
  · subst hj
    simp [Peer.Same]
  · simp [Peer.Same, update_of_ne hj]

theorem reaches_onMember (b : BeaconPkt) (c : UInt64) (flags : UInt8) (now : Instant)
    (ip : UInt32) : Reaches C Z s (s.onMember C b c flags now.1 ip) := by
  have hdrop : Reaches C Z s (s.dropCand b.pub) := .frame (K := ∅) (s.frame_dropCand C b.pub)
  have hfresh := hdrop.trans (.single (.fresh _ (b.pub.first 8 (by omega)) c now))
  unfold onMember
  simp only
  refine .ite (fun h => ?_) fun _ => hfresh
  obtain ⟨i, hi⟩ := holds_fresh _ _ _ _ h
  have hnote := hfresh.trans (.still (still_notePeer C _ hi b.nd ip flags))
  exact .ite (fun _ => hnote.trans (.frame (frame_beacon_any C _ true now.1))) fun _ => hnote

theorem reaches_onBeacon (p l : Bytes) (now : Instant) (ip : UInt32)
    (nonce : Blob 24) : Reaches C Z s (s.onBeacon C p l now.1 ip nonce) := by
  unfold onBeacon
  split
  · exact .refl s
  · refine .ite (fun _ => .refl s) fun _ => .ite (fun _ => ?_) fun _ => ?_
    · split
      · exact .refl s
      · exact .ite (fun _ => s.reaches_onMember C _ _ _ now ip) fun _ => .refl _
    · exact .frame (s.frame_onOutsider C _ now.1 ip nonce (Set.subset_univ _))

theorem frame_onPair (l : Bytes) (now : ℤ) : Frame C K s (s.onPair l now) := by
  unfold onPair
  split
  · exact .refl s
  · exact .ite (fun _ => .refl s) fun _ => .of_surface rfl

/-- A key that is taken is for a lower network than ours. -/
theorem reaches_takeKey (id : UInt64) (blob : Blob blobLen) (now : ℤ)
    (hzero : (s.takeKey C id blob now).1 = true → id ≠ 0 ∨ Z) :
    Reaches C Z s (s.takeKey C id blob now).2 := by
  unfold takeKey at hzero ⊢
  by_cases hrun : (!s.running) = true
  · rw [if_pos hrun]
    exact .refl s
  rw [if_neg hrun] at hzero ⊢
  by_cases hnet : s.inNet = true ∧ s.netId ≤ id
  · rw [if_pos hnet]
    exact .refl s
  rw [if_neg hnet] at hzero ⊢
  cases hopen : s.openBlob C id blob with
  | none => exact .refl s
  | some k =>
    rw [hopen] at hzero
    have hadopt : Reaches C Z s (s.adopt C k id now) := by
      refine .single (.adopt s k id now (fun h => ?_) (hzero rfl))
      exact UInt64.not_le.mp fun hle => hnet ⟨h, hle⟩
    exact .ite (fun _ => hadopt.trans (.still (.of_eq rfl))) fun _ => hadopt

/-- The sealed key is for us, and we take keys: we are pairing, or an Echo that Home
Assistant confirmed hands over the network it beacons. -/
def Invited (g : GivePkt) (now : ℤ) : Prop :=
  g.to_ = s.pk ∧ ((s.pairUntil ≠ 0 ∧ now < s.pairUntil) ∨
    ((s.giver g).isSome ∧ (s.inNet = false ∨ g.net < s.netId)))

/-- The sealed key of this packet is for the network `0`, and is taken. -/
def TakesZero (ev : Ev) : Prop :=
  ∃ p now ip nonce l g, ev = .packet p now ip nonce ∧ readHead p = some (tGive, l) ∧
    readGive l = some g ∧ g.net = 0 ∧ s.Invited g now.1 ∧ s.running = true ∧
    (s.inNet = true → s.netId ≠ 0) ∧ s.openBlob C 0 g.blob ≠ none

theorem takeKey_eq_true {id : UInt64} {blob : Blob blobLen} {now : ℤ}
    (h : (s.takeKey C id blob now).1 = true) :
    s.running = true ∧ (s.inNet = true → id < s.netId) ∧ s.openBlob C id blob ≠ none := by
  unfold takeKey at h
  by_cases hrun : (!s.running) = true
  · rw [if_pos hrun] at h
    exact absurd h (by simp)
  rw [if_neg hrun] at h
  by_cases hnet : s.inNet = true ∧ s.netId ≤ id
  · rw [if_pos hnet] at h
    exact absurd h (by simp)
  rw [if_neg hnet] at h
  refine ⟨by simpa using hrun, fun hin => UInt64.not_le.mp fun hle => hnet ⟨hin, hle⟩,
    fun hopen => ?_⟩
  rw [hopen] at h
  exact absurd h (by simp)

theorem reaches_onGive {p l : Bytes} (now : Instant) (ip : UInt32) (nonce : Blob 24)
    (hp : readHead p = some (tGive, l)) :
    Reaches C (s.TakesZero C (.packet p now ip nonce)) s (s.onGive C l now.1) := by
  unfold onGive
  split
  · exact .refl s
  next g hg =>
  refine .ite (fun _ => .refl s) fun hto => ?_
  have hto' : g.to_ = s.pk := by simpa using hto
  -- a key for the network 0 that is taken is what `TakesZero` says
  have htake : s.Invited g now.1 → Reaches C (s.TakesZero C (.packet p now ip nonce)) s
      (s.takeKey C g.net g.blob now.1).2 := by
    intro hinv
    refine s.reaches_takeKey C g.net g.blob now.1 fun h => ?_
    by_cases hzero : g.net = 0
    · right
      obtain ⟨hrun, hlow, hopen⟩ := s.takeKey_eq_true C h
      rw [hzero] at hlow hopen
      exact ⟨p, now, ip, nonce, l, g, rfl, hp, hg, hzero, hinv, hrun,
        fun hin => (UInt64.ne_of_lt (hlow hin)).symm, hopen⟩
    · exact .inl hzero
  refine .ite (fun hpair => htake ⟨hto', .inl hpair⟩) fun _ => ?_
  split
  · exact .refl s
  next i hi =>
  refine .ite (fun hnet => htake ⟨hto', .inr ⟨by rw [hi]; rfl, ?_⟩⟩) fun _ => .refl _
  rcases hnet with h | h
  · exact .inl (by simpa using h)
  · exact .inr h

theorem reaches_onMsg (p l : Bytes) (now : Instant) (ip : UInt32) :
    Reaches C Z s (s.onMsg C p l now.1 ip) := by
  unfold onMsg
  split
  · exact .refl s
  next m hm =>
  refine .ite (fun _ => .refl s) fun _ => ?_
  have hfresh : Reaches C Z s (s.fresh m.from_ m.c now.1).2 := .single (.fresh s m.from_ m.c now)
  refine .ite (fun _ => hfresh) fun h => ?_
  rw [not_or] at h
  obtain ⟨i, hi⟩ := s.holds_fresh m.from_ m.c now (by simpa using h.1)
  have hpeer := peer_eq_of_holds _ hi
  rw [hpeer]
  exact hfresh.trans (.still (.of_eq rfl))

theorem still_keepClaim (k : Claim) : Still C s (s.keepClaim k) := by
  have hkeep : Still C s ({ s with
      claims := update s.claims (Fin.ofNat nClaim s.claimNext) k
      claimNext := s.claimNext + 1 }.log (.kept k)) :=
    (Still.of_eq rfl : Still C s { s with
      claims := update s.claims (Fin.ofNat nClaim s.claimNext) k
      claimNext := s.claimNext + 1 }).trans (.log (.kept k))
  unfold keepClaim
  simp only
  refine .ite (fun _ => ?_) fun _ => hkeep
  have hheard := hkeep.trans (.of_frame (K := ∅) (frame_heard C _ k.id k.at_ k.score k.prio k.won))
  exact .ite (fun _ => hheard) fun _ =>
    hheard.trans (.of_frame (K := ∅) (frame_sample C _ _ _ _))

theorem reaches_onClaim (p l : Bytes) (now : Instant) :
    Reaches C Z s (s.onClaim C p l now.1) := by
  unfold onClaim
  split
  · exact .refl s
  next q hq =>
  refine .ite (fun _ => .refl s) fun _ => ?_
  have hfresh : Reaches C Z s (s.fresh q.id q.c now.1).2 := .single (.fresh s q.id q.c now)
  exact .ite (fun _ => hfresh.trans (.still (still_keepClaim C _ _))) fun _ => hfresh

theorem reaches_onPacket (p : Bytes) (now : Instant) (ip : UInt32) (nonce : Blob 24) :
    Reaches C (s.TakesZero C (.packet p now ip nonce)) s (s.onPacket C p now.1 ip nonce) := by
  unfold onPacket
  split
  · exact .refl s
  next t l hl =>
  refine .ite (fun _ => s.reaches_onBeacon C p l now ip nonce) fun _ =>
    .ite (fun _ => .frame (K := ∅) (s.frame_onPair C l now.1)) fun _ => .ite (fun ht => ?_) fun _ =>
    .ite (fun _ => s.reaches_onMsg C p l now ip) fun _ =>
    .ite (fun _ => s.reaches_onClaim C p l now) fun _ => .refl _
  rw [ht] at hl
  exact s.reaches_onGive C now ip nonce hl

/-! ### The loop and the calls -/

theorem reaches_tick : Reaches C Z s (s.tick C e) := by
  have hown : Reaches C Z s (s.tickOwn e e.now.1) :=
    .frame (K := ∅) (s.frame_tickOwn C e e.now.1)
  have hfound : Reaches C Z s ((s.tickOwn e e.now.1).found C e e.now.1) := by
    refine hown.trans ?_
    unfold found
    refine .ite (fun h => ?_) fun _ => .refl _
    refine .single (.adopt _ _ _ _ (fun hin => ?_) (.inl e.newId.2))
    rw [hin] at h
    exact absurd h.1 (by simp)
  have hnet : ∀ t : St, Reaches C Z t (t.tickNet C e e.now.1) := by
    intro t
    have h₁ := t.frame_pushAll C e e.now.1 (K := Set.univ) (Set.mem_univ _)
    have h₂ : Frame C Set.univ t ((t.pushAll C e e.now.1).beaconDue C e e.now.1) := by
      refine h₁.trans ?_
      unfold beaconDue
      refine .ite (fun _ => .refl _) fun _ => ?_
      exact (frame_beacon_any C _ false e.now.1).after rfl
    have h₃ := h₂.trans (frame_scanTag C _ e.now.1)
    exact .frame (h₃.trans (frame_pollAll C _ e.now.1))
  exact (hfound.trans (hnet _)).trans (.frame (frame_tickEnd C e _ e.now.1 (Set.subset_univ _)))

theorem reaches_arbKey (network key : Bytes) (now : ℤ) :
    Reaches C Z s (s.arbKey C network key now) := by
  unfold arbKey
  simp only
  split
  · exact .refl s
  next id rest _ =>
  split
  · next h => exact s.reaches_takeKey C id _ now fun _ => .inl h.2.1
  · exact .refl s

theorem frame_arbHaState (entity state : Bytes) :
    Frame C K s (s.arbHaState entity state) := by
  unfold arbHaState
  refine .ite (fun _ => .refl s) fun _ => .foldl (fun t i => ?_) _ _
  unfold confirm
  refine .ite (fun _ => .refl t) fun _ => .ite (fun _ => t.frame_setCand C i _) fun _ => ?_
  exact .ite (fun _ => t.frame_setCand C i _) fun _ => .refl t

theorem frame_arbPair (now : ℤ) : Frame C K s (s.arbPair now) := by
  unfold arbPair
  exact .ite (fun _ => .refl s) fun _ => .of_surface rfl

theorem frame_kioskClaim (keyword : Bytes) (score : Int32) (now : ℤ)
    (rand : UInt32) : Frame C K s (s.kioskClaim keyword score now rand).2 := by
  have hsend : ∀ (u : St) (n : ℕ) (at_ : ℤ), u.surface = s.surface →
      Frame C K s { u.kioskSend with kcopies := n, kcopyAt := at_ } := by
    intro u n at_ hu
    exact ((frame_kioskSend C u).after hu).trans (.of_surface rfl)
  unfold kioskClaim
  by_cases hround : !s.running ∨ !s.arbitrate ∨ !s.ksock ∨ kioskPhrase keyword = []
  · rw [if_pos hround]
    exact .refl s
  rw [if_neg hround]
  simp only
  split
  · exact .of_surface rfl
  · exact hsend _ _ _ rfl

theorem still_beginRound (kw : Blob 8) (now : ℤ) : Still C s (s.beginRound kw now) := .of_eq rfl

theorem still_askRound (score prio : Int32) (now : ℤ) : Still C s (s.askRound score prio now) :=
  .of_eq rfl

theorem still_setDue (due : ℤ) : Still C s (s.setDue due) := .of_eq rfl

theorem still_setDecided (win : Bool) : Still C s (s.setDecided win) := .of_eq rfl

theorem still_claimPkt (score prio : Int32) (won : Bool) (now : ℤ) :
    Still C s (s.claimPkt C score prio won now) :=
  .of_frame (K := Set.univ) (s.frame_claimPkt C score prio won now (Set.mem_univ _))

/-- Our claim goes out. -/
theorem still_openRound (score prio : Int32) (now : ℤ) :
    Still C s (s.openRound C score prio now) := by
  have hask := s.still_askRound C score prio now
  have hheard := hask.trans (.of_frame (frame_heardAll C (K := ∅) _ now))
  exact (hheard.trans (still_claimPkt C _ score prio false now)).trans (still_setDue C _ _)

theorem still_arbClaim (keyword : Bytes) (score prio : Int32) (now : ℤ) (rand : UInt32) :
    Still C s (s.arbClaim C keyword score prio now rand) := by
  set kw := C.blake2b8 ((keyword.take 64).map toLower) with hkw
  have hclose : Still C s (s.closeRound now) := .of_frame (K := ∅) (s.frame_closeRound C now)
  have hbegin := hclose.trans (still_beginRound C _ kw now)
  unfold arbClaim
  rw [← hkw]
  refine .ite (fun _ => ?_) fun _ => .ite (fun _ => ?_) fun _ => ?_
  · have hkiosk := hbegin.trans (.of_frame (K := ∅) (frame_kioskClaim C _ keyword score now rand))
    exact hkiosk.trans (.log (.claimed _))
  · exact (hbegin.trans (still_openRound C _ score prio now)).trans (.log (.claimed _))
  · exact hbegin.trans (.log (.claimed _))

theorem still_arbDecide (now : ℤ) : Still C s (s.arbDecide C now) := by
  have hset := s.still_setDecided C (!s.beaten)
  unfold arbDecide
  refine .ite (fun _ => .log (.decided _)) fun _ => ?_
  refine (Still.ite (fun _ => ?_) fun _ => hset).trans (.log (.decided _))
  exact hset.trans (still_claimPkt C _ _ _ true now)

theorem still_arbArbitrate (set : Bool) : Still C s (s.arbArbitrate set) := by
  unfold arbArbitrate
  refine .ite (fun _ => .refl s) fun _ => ?_
  have hset : Still C s { s with arbitrate := set, claims := fun _ => {}, beaconAt := 0 } :=
    .of_eq rfl
  exact (hset.trans (.of_frame (K := ∅) (frame_save C _))).trans (.of_eq rfl)

theorem still_arbMode (set : Mode) : Still C s (s.arbMode set) := by
  unfold arbMode
  exact .ite (fun _ => .refl s) fun _ => .of_eq rfl

theorem frame_arbTell (to_ : Blob 8) (p : Bytes) : Frame C Set.univ s (s.arbTell C to_ p) := by
  unfold arbTell
  refine .ite (fun _ => .refl s) fun _ => ?_
  exact (s.frame_nextCtr C).trans (frame_sendPkt C _ (Set.mem_univ _) (.msg _ _ _))

/-! ### Steps and runs -/

/-- **Every step of an Echo is a sequence of moves.** -/
theorem step_reaches (ev : Ev) : Reaches C (s.TakesZero C ev) s (s.step C ev) := by
  cases ev with
  | packet p now ip nonce => exact s.reaches_onPacket C p now ip nonce
  | tick e => exact s.reaches_tick C e
  | key network key now => exact s.reaches_arbKey C network key now.1
  | haState entity state => exact .frame (K := ∅) (s.frame_arbHaState C entity state)
  | pair now => exact .frame (K := ∅) (s.frame_arbPair C now.1)
  | claim keyword score prio now rand =>
    exact .still (s.still_arbClaim C keyword score prio now.1 rand)
  | decide now => exact .still (s.still_arbDecide C now.1)
  | arbitrate set => exact .still (s.still_arbArbitrate C set)
  | mode set => exact .still (s.still_arbMode C set)
  | offset set =>
    refine .still ?_
    unfold step arbOffset
    exact .ite (fun _ => .of_eq rfl) fun _ => .refl s
  | window set =>
    refine .still ?_
    unfold step arbWindow
    exact .ite (fun _ => .of_eq rfl) fun _ => .refl s
  | windowAuto set =>
    refine .still ?_
    unfold step arbWindowAuto
    exact .ite (fun _ => .refl s) fun _ => .of_eq rfl
  | tell to_ p => exact .frame (s.frame_arbTell C to_ p)

end St

theorem pos_6000 : (0 : ℤ) < 6000 := by decide
theorem pos_6001 : (0 : ℤ) < 6001 := by decide
theorem pos_6002 : (0 : ℤ) < 6002 := by decide
theorem pos_6003 : (0 : ℤ) < 6003 := by decide
theorem pos_20000 : (0 : ℤ) < 20000 := by decide

end Hassmic.Arb
