import Hassmic.Arb.Interface

/-!
# What the functions leave alone

Most of what an Echo does changes neither who it is and which network it is in,
nor the members and claims it knows, and only adds to its history.  This module
says so once for each function, together with the kinds of packets it may send;
everything that holds over whole runs is derived from these facts.

## Main definitions

* `Core` — identity and network.
* `Kind`, `Sends` — the packets an Echo may send.
* `Frame` — a step that leaves core, peers, claims and the round's key alone.

## Main results

* `frame_tick` — a turn of the loop in a network is such a step.
-/

namespace Hassmic.Arb

open Wire List

/-- Who an Echo is and its network. -/
structure Core where
  pace : ℕ
  running : Bool
  node : Node
  sk : Blob 32
  pk : Blob 32
  inNet : Bool
  netId : UInt64
  netKey : Blob 32
  macKey : Blob 32

namespace Core

/-- The first eight bytes of the public key. -/
def id (c : Core) : Blob 8 := c.pk.first 8 St.eight_le

end Core

def St.core (s : St) : Core :=
  ⟨s.pace, s.running, s.node, s.sk, s.pk, s.inNet, s.netId, s.netKey, s.macKey⟩

/-- What identifies our round. -/
structure RoundKey where
  kw : Blob 8
  score : Int32
  prio : Int32
  kiosk : Bool
  at_ : ℤ

def St.key (s : St) : RoundKey :=
  ⟨s.round.kw, s.round.score, s.round.prio, s.round.kiosk, s.round.at_⟩

/-- All that a frame speaks of. -/
def St.surface (s : St) :=
  (s.core, s.peers, s.claims, s.claimNext, s.key, s.arbitrate, s.mode, s.out)

/-- The kinds of packets. -/
inductive Kind
  /-- A beacon of our own accord. -/
  | beacon
  /-- A beacon in answer to another. -/
  | answer
  | loner
  | pair
  | give
  | claim
  | msg

/-- **The packets an Echo may send.** -/
inductive Sends (C : Crypto) (c : Core) : Kind → Bytes → Prop
  | beacon (n : UInt64) (flags : UInt8) (hnet : c.inNet = true) :
      Sends C c .beacon (beaconBytes C c.macKey c.pk c.netId c.node n flags)
  | answer (n : UInt64) (flags : UInt8) (hnet : c.inNet = true) (hhello : flags &&& fHello = 0) :
      Sends C c .answer (beaconBytes C c.macKey c.pk c.netId c.node n flags)
  | loner (hnet : c.inNet = false) : Sends C c .loner (beaconHead tBeacon c.pk 0 c.node)
  | pair (net : UInt64) : Sends C c .pair (beaconHead tPair c.pk net c.node)
  | give (g : GivePkt) : Sends C c .give (giveBytes g)
  | claim (n : UInt64) (kw : Blob 8) (score : Int32) (prio won : UInt8) :
      Sends C c .claim (claimBytes C c.macKey c.netId c.id n kw score prio won)
  | msg (to_ : Blob 8) (n : UInt64) (p : Bytes) :
      Sends C c .msg (msgBytes C c.macKey c.netId c.id to_ n p)

/-- The type byte of a kind. -/
def Kind.type : Kind → UInt8
  | .beacon | .answer | .loner => tBeacon
  | .pair => tPair
  | .give => tGive
  | .claim => tClaim
  | .msg => tMsg

theorem Sends.typed {C : Crypto} {c : Core} {k : Kind} {p : Bytes} (h : Sends C c k p) :
    Typed k.type p := by
  cases h with
  | beacon => exact typed_beaconBytes ..
  | answer => exact typed_beaconBytes ..
  | loner => exact typed_beaconHead ..
  | pair => exact typed_beaconHead ..
  | give => exact typed_giveBytes _
  | claim => exact typed_claimBytes ..
  | msg => exact typed_msgBytes ..

/-- What may be added to the history by a step that sends packets of the kinds `K`. -/
inductive Adds (C : Crypto) (c : Core) (K : Set Kind) : Out → Prop
  | sent {k : Kind} {p : Bytes} (hk : k ∈ K) (h : Sends C c k p) : Adds C c K (.sent p)
  | copied (p : Bytes) : Adds C c K (.copied p)
  | saved (u : St) (h : u.core = c) : Adds C c K (.saved u.stateText)
  | kioskSent (p : Bytes) : Adds C c K (.kioskSent p)
  | sendKey (q : Push) : Adds C c K (.sendKey q)
  | request (entity : Bytes) : Adds C c K (.request entity)
  | scan (t : Bytes) : Adds C c K (.scan t)
  | paired (e : PairEvent) : Adds C c K (.paired e)
  | message (m : Msg) : Adds C c K (.message m)
  | changed : Adds C c K .changed

theorem Adds.mono {C : Crypto} {c : Core} {K K' : Set Kind} (hK : K ⊆ K') {o : Out}
    (h : Adds C c K o) : Adds C c K' o := by
  cases h with
  | sent hk h => exact .sent (hK hk) h
  | copied p => exact .copied p
  | saved u h => exact .saved u h
  | kioskSent p => exact .kioskSent p
  | sendKey q => exact .sendKey q
  | request entity => exact .request entity
  | scan t => exact .scan t
  | paired e => exact .paired e
  | message m => exact .message m
  | changed => exact .changed

/-- The packet that was sent. -/
def sentOf : Out → Option Bytes
  | .sent p => some p
  | _ => none

theorem mem_filterMap_sentOf {l : List Out} {p : Bytes} :
    p ∈ l.filterMap sentOf ↔ Out.sent p ∈ l := by
  rw [mem_filterMap]
  constructor
  · rintro ⟨o, ho, hsent⟩
    cases o with
    | sent q => rwa [Option.some.inj hsent] at ho
    | _ => exact absurd hsent (by simp [sentOf])
  · exact fun h => ⟨_, h, rfl⟩

/-- **A step that leaves core, peers, claims and the round's key alone** and sends
packets of the kinds `K` only. -/
structure Frame (C : Crypto) (K : Set Kind) (s t : St) : Prop where
  core : t.core = s.core
  peers : t.peers = s.peers
  claims : t.claims = s.claims
  claimNext : t.claimNext = s.claimNext
  key : t.key = s.key
  settings : (t.arbitrate, t.mode) = (s.arbitrate, s.mode)
  out : ∃ l, t.out = s.out ++ l ∧ ∀ o ∈ l, Adds C s.core K o

namespace Frame

variable {C : Crypto} {K K' : Set Kind} {s t u : St}

/-- Nothing is added to the history. -/
theorem of_surface (h : t.surface = s.surface) : Frame C K s t := by
  simp only [St.surface, Prod.mk.injEq] at h
  obtain ⟨hcore, hpeers, hclaims, hnext, hkey, harb, hmode, hout⟩ := h
  refine ⟨hcore, hpeers, hclaims, hnext, hkey, by rw [harb, hmode], [], ?_, by simp⟩
  simpa using hout

theorem refl (s : St) : Frame C K s s := of_surface rfl

theorem trans (h₁ : Frame C K s t) (h₂ : Frame C K t u) : Frame C K s u := by
  obtain ⟨l₁, hl₁, hq₁⟩ := h₁.out
  obtain ⟨l₂, hl₂, hq₂⟩ := h₂.out
  refine ⟨h₂.core.trans h₁.core, h₂.peers.trans h₁.peers, h₂.claims.trans h₁.claims,
    h₂.claimNext.trans h₁.claimNext, h₂.key.trans h₁.key,
    h₂.settings.trans h₁.settings, l₁ ++ l₂, ?_, fun o ho => ?_⟩
  · rw [hl₂, hl₁, append_assoc]
  · rcases mem_append.mp ho with ho | ho
    · exact hq₁ o ho
    · rw [← h₁.core]
      exact hq₂ o ho

/-- Something unseen is set first. -/
theorem after (h : Frame C K t u) (heq : t.surface = s.surface) : Frame C K s u :=
  (of_surface heq).trans h

/-- Either way of a branch. -/
theorem ite {p : Prop} [Decidable p] (h₁ : p → Frame C K s t) (h₂ : ¬ p → Frame C K s u) :
    Frame C K s (if p then t else u) := by
  split
  · next h => exact h₁ h
  · next h => exact h₂ h

/-- Every turn of a loop. -/
theorem foldl {α : Type*} {f : St → α → St} (hf : ∀ t a, Frame C K t (f t a))
    (l : List α) (s : St) :
    Frame C K s (l.foldl f s) := by
  induction l generalizing s with
  | nil => exact refl s
  | cons a l ih => exact (hf s a).trans (ih _)

theorem inNet (h : Frame C K s t) : t.inNet = s.inNet := congrArg Core.inNet h.core

end Frame

namespace St

variable (C : Crypto) (e : Turn) (s : St) {K : Set Kind}

/-! ### The history -/

theorem frame_logAll {l : List Out} (h : ∀ o ∈ l, Adds C s.core K o) : Frame C K s (s.logAll l) :=
  ⟨rfl, rfl, rfl, rfl, rfl, rfl, l, rfl, h⟩

theorem frame_log {o : Out} (h : Adds C s.core K o) : Frame C K s (s.log o) :=
  s.frame_logAll C fun o' ho' => by rw [mem_singleton.mp ho']; exact h

theorem frame_save : Frame C K s s.save := s.frame_log C (.saved s rfl)

theorem frame_nextCtr : Frame C K s s.nextCtr := by
  have hctr : ∀ t : St, t = { s with ctr := s.ctr + 1 } → Frame C K s t := by
    rintro t rfl
    exact .of_surface rfl
  unfold nextCtr
  simp only
  split
  · have hblock : Frame C K s { s with ctr := s.ctr + 1, ctrSaved := s.ctr + 1 + ctrBlock } :=
      .of_surface rfl
    exact hblock.trans (frame_save C _)
  · exact hctr _ rfl

theorem frame_sendPkt {k : Kind} {p : Bytes} (hk : k ∈ K) (h : Sends C s.core k p) :
    Frame C K s (s.sendPkt p) := s.frame_log C (.sent hk h)

theorem frame_sendSpread {k : Kind} {p : Bytes} (hk : k ∈ K) (h : Sends C s.core k p) (now : ℤ) :
    Frame C K s (s.sendSpread p now) :=
  (s.frame_sendPkt C hk h).trans (.of_surface rfl)

/-! ### Beacons -/

theorem beaconFlags_answer (now : ℤ) : s.beaconFlags true now &&& fHello = 0 := by
  unfold beaconFlags
  simp only [Bool.not_true, Bool.false_and, Bool.false_eq_true, if_false]
  split <;> split <;> decide

/-- A beacon in a network. -/
theorem frame_beacon (hnet : s.inNet = true) (answer : Bool) (now : ℤ)
    (hk : (if answer then Kind.answer else Kind.beacon) ∈ K) :
    Frame C K s (s.beacon C answer now) := by
  have hctr := s.frame_nextCtr C (K := K)
  have hnet' : s.nextCtr.core.inNet = true := by rw [hctr.core]; exact hnet
  unfold beacon
  rw [if_pos hnet]
  cases answer with
  | true =>
    exact hctr.trans (frame_sendPkt C _ hk (.answer _ _ hnet' (s.beaconFlags_answer now)))
  | false => exact hctr.trans (frame_sendPkt C _ hk (.beacon _ _ hnet'))

theorem frame_loner (hnet : s.inNet = false) (answer : Bool) (now : ℤ) (hk : Kind.loner ∈ K) :
    Frame C K s (s.beacon C answer now) := by
  unfold beacon
  rw [if_neg (by simp [hnet])]
  exact s.frame_sendPkt C hk (.loner hnet)

/-! ### Rounds -/

theorem frame_sample (id : Blob 8) (ms at_ : ℤ) : Frame C K s (s.sample id ms at_) := by
  unfold sample
  exact .ite (fun _ => .refl s) fun _ => .of_surface rfl

theorem frame_heard (id : Blob 8) (at_ : ℤ) (score : Int32) (prio : UInt8) (won : Bool) :
    Frame C K s (s.heard id at_ score prio won) := by
  unfold heard
  exact .ite (fun _ => .of_surface rfl) fun _ =>
    .ite (fun _ => .of_surface rfl) fun _ => .refl s

theorem frame_rival (id : Blob 8) : Frame C K s (s.rival id).2 := by
  unfold rival
  split
  · exact .refl s
  · exact .of_surface rfl

theorem frame_observe (i : Fin nPeer) (own d : Int32) (at_ : ℤ) :
    Frame C K s (s.observe i own d at_) := .of_surface rfl

theorem frame_rivalsTake (cutoff : ℤ) : Frame C K s (s.rivalsTake cutoff) := by
  have hfold : Frame C K s (s.round.want.foldl (s.takeRival cutoff) s) :=
    .foldl (fun t (w : Want) => (t.frame_rival C w.id).trans (frame_observe C _ _ _ _ _)) _ _
  unfold rivalsTake
  exact { hfold with key := rfl }

theorem frame_withdraw (now : ℤ) (g : Got) : Frame C K s (s.withdraw now g) := by
  unfold withdraw
  exact .ite (fun _ => .of_surface rfl) fun _ => .refl s

theorem frame_closeRound (now : ℤ) : Frame C K s (s.closeRound now) := by
  unfold closeRound
  refine .ite (fun _ => ?_) fun _ => .refl s
  exact (Frame.foldl (fun t g => t.frame_withdraw C now g) _ _).trans (frame_rivalsTake C _ _)

theorem frame_heardBefore (now : ℤ) (i : Fin nClaim) : Frame C K s (s.heardBefore now i) := by
  unfold heardBefore
  refine .ite (fun _ => ?_) fun _ => .refl s
  have hheard := s.frame_heard C (K := K) (s.claims i).id (s.claims i).at_ (s.claims i).score
    (s.claims i).prio (s.claims i).won
  exact .ite (fun _ => hheard) fun _ => hheard.trans (frame_sample C _ _ _ _)

theorem frame_heardAll (now : ℤ) : Frame C K s (s.heardAll now) :=
  .foldl (fun t i => t.frame_heardBefore C now i) _ _

/-- A claim of ours. -/
theorem frame_claimPkt (score prio : Int32) (won : Bool) (now : ℤ) (hk : Kind.claim ∈ K) :
    Frame C K s (s.claimPkt C score prio won now) :=
  (s.frame_nextCtr C).trans (frame_sendSpread C _ hk (.claim _ _ _ _ _) now)

/-! ### Candidates -/

theorem frame_setCand (i : Fin nPeer) (c : Cand) : Frame C K s (s.setCand i c) :=
  .of_surface rfl

theorem frame_dropCand (pub : Blob 32) : Frame C K s (s.dropCand pub) :=
  .of_surface rfl

theorem frame_speedUp (now : ℤ) : Frame C K s (s.speedUp now) := by
  unfold speedUp
  exact .ite (fun _ => .refl s) fun _ => .of_surface rfl

theorem frame_push (i : Fin nPeer) (now : ℤ) (nonce : Blob 24) (hk : Kind.give ∈ K) :
    Frame C K s (s.push C i now nonce) := by
  unfold push
  refine .ite (fun _ => .refl s) fun _ => .ite (fun _ => .ite (fun _ => .refl s) fun _ => ?_)
    fun _ => .ite (fun _ => .refl s) fun _ => ?_
  · split
    · exact .refl s
    · have hset := s.frame_setCand C (K := K) i { s.cands i with gave := now }
      exact (hset.trans (frame_sendPkt C _ hk (.give _))).trans
        (frame_sendPkt C _ hk (.give _))
  · split
    · exact .refl s
    · exact .of_surface rfl

theorem frame_pollTag (pub : Blob 32) : Frame C K s (s.pollTag pub) := by
  unfold pollTag
  exact .ite (fun _ => .of_surface rfl) fun _ => .refl s

/-- A beacon of an Echo outside our network is answered at most once. -/
theorem frame_onOutsider (b : BeaconPkt) (now : ℤ) (ip : UInt32) (nonce : Blob 24)
    (hk : {Kind.answer, Kind.give} ⊆ K) : Frame C K s (s.onOutsider C b now ip nonce) := by
  unfold onOutsider
  simp only
  refine Frame.trans ?_ (frame_push C _ _ _ _ (hk (by simp)))
  have hfast : Frame C K s (if (s.cand b.pub).first = 0 then s.speedUp now else s) :=
    .ite (fun _ => s.frame_speedUp C now) fun _ => .refl s
  have hset := hfast.trans (frame_setCand C _ (s.candSlot b.pub)
    { s.cand b.pub with
      first := if (s.cand b.pub).first = 0 then now else (s.cand b.pub).first
      ip := ip, node := b.nd, net := b.net, seen := now })
  have hanswer : ∀ u : St, Frame C K s u → u.inNet = true →
      Frame C K s ({ u with answerAt := now }.beacon C true now) := by
    intro u hu hnet
    have hat : Frame C K s { u with answerAt := now } :=
      hu.trans (.of_surface rfl)
    exact hat.trans
      (frame_beacon C _ (hat.inNet.trans (hu.inNet.symm.trans hnet)) true now (hk (by simp)))
  exact .ite (fun h => hanswer _ hset h.1) fun _ => hset

/-! ### A turn of the loop -/

theorem frame_kioskSend : Frame C K s s.kioskSend := by
  unfold kioskSend
  exact .ite (fun _ => s.frame_log C (.kioskSent _)) fun _ => .refl s

theorem frame_kioskSync (now : ℤ) : Frame C K s (s.kioskSync e now) := by
  unfold kioskSync
  refine .ite (fun _ => .of_surface rfl) fun _ => .ite (fun _ => .refl s) fun _ => ?_
  exact .ite (fun _ => .of_surface rfl) fun _ => .of_surface rfl

theorem frame_kioskCopy (now : ℤ) : Frame C K s (s.kioskCopy now) := by
  unfold kioskCopy
  refine .ite (fun _ => ?_) fun _ => .refl s
  exact (s.frame_kioskSend C).trans (.of_surface rfl)

theorem frame_sendCopy (i : Fin 2) (now : ℤ) : Frame C K s (s.sendCopy i now) := by
  unfold sendCopy
  refine .ite (fun _ => ?_) fun _ => .refl s
  exact (s.frame_log C (.copied _)).trans (.of_surface rfl)

theorem frame_endRound (now : ℤ) : Frame C K s (s.endRound now) := by
  unfold endRound
  refine .ite (fun _ => ?_) fun _ => .refl s
  have hopen : Frame C K s { s with round := { s.round with open_ := false } } :=
    .of_surface rfl
  exact hopen.trans (frame_rivalsTake C _ _)

theorem frame_takeDirty (now : ℤ) : Frame C K s (s.takeDirty now) := by
  unfold takeDirty
  refine .ite (fun _ => ?_) fun _ => .refl s
  exact .ite (fun _ => .of_surface rfl) fun _ => .of_surface rfl

theorem frame_saveRounds (now : ℤ) : Frame C K s (s.saveRounds now) := by
  unfold saveRounds
  refine .ite (fun _ => ?_) fun _ => .refl s
  have hat : Frame C K s { s with unsaved := false, savedAt := now } :=
    .of_surface rfl
  exact hat.trans (frame_save C _)

theorem frame_pushAll (now : ℤ) (hk : Kind.give ∈ K) : Frame C K s (s.pushAll C e now) := by
  unfold pushAll
  exact .foldl (fun t i => .ite (fun _ => t.frame_push C i now _ hk) fun _ => .refl t) _ _

theorem frame_beaconDue (now : ℤ) (hnet : s.inNet = true) (hk : Kind.beacon ∈ K) :
    Frame C K s (s.beaconDue C e now) := by
  unfold beaconDue
  refine .ite (fun _ => .refl s) fun _ => ?_
  have hat : Frame C K s { s with
      beaconAt := now
      beaconGap := s.beaconMinMs + e.rand.toNat % (s.beaconMaxMs - s.beaconMinMs) } :=
    .of_surface rfl
  exact hat.trans (frame_beacon C _ (hat.inNet.trans hnet) false now hk)

theorem frame_scanTag (now : ℤ) : Frame C K s (s.scanTag now) := by
  unfold scanTag
  refine .ite (fun _ => .of_surface rfl) fun _ => .ite (fun _ => .refl s) fun _ => ?_
  exact .of_surface rfl

theorem frame_pollOne (i : Fin nPeer) (now : ℤ) : Frame C K s (s.pollOne i now) := by
  unfold pollOne
  refine .ite (fun _ => ?_) fun _ => .refl s
  exact (s.frame_setCand C i { s.cands i with polled := now }).trans (frame_pollTag C _ _)

theorem frame_pollAll (now : ℤ) : Frame C K s (s.pollAll now) :=
  .foldl (fun t i => t.frame_pollOne C i now) _ _

theorem frame_endPairing (now : ℤ) : Frame C K s (s.endPairing now) := by
  unfold endPairing
  exact .ite (fun _ => .of_surface rfl) fun _ => .refl s

theorem frame_askPair (now : ℤ) (hk : Kind.pair ∈ K) : Frame C K s (s.askPair now) := by
  unfold askPair
  refine .ite (fun _ => .refl s) fun _ => ?_
  have hat : Frame C K s { s with pairSent := now } := .of_surface rfl
  exact hat.trans (frame_sendPkt C _ hk (.pair _))

theorem frame_handOver : Frame C K s (s.handOver C e) := by
  unfold handOver
  refine .ite (fun _ => .refl s) fun _ => ?_
  split
  · exact .refl s
  · split
    · exact .refl s
    · exact .of_surface rfl
  · exact .of_surface rfl

theorem frame_pairing (now : ℤ) (hk : Kind.pair ∈ K) : Frame C K s (s.pairing C e now) := by
  have hend := s.frame_endPairing C (K := K) now
  unfold pairing
  refine .ite (fun _ => hend) fun _ => ?_
  have hask := hend.trans (frame_askPair C _ now hk)
  exact .ite (fun _ => hask.trans (frame_handOver C e _)) fun _ => hask

theorem frame_reportPeers (now : ℤ) : Frame C K s (s.reportPeers now) := by
  unfold reportPeers
  exact .ite (fun _ => .of_surface rfl) fun _ => .refl s

theorem frame_askTag (now : ℤ) (entity : Bytes) : Frame C K s (s.askTag e now entity) := by
  have hlog := s.frame_log C (K := K) (.request entity)
  unfold askTag
  refine .ite (fun _ => hlog.trans (.of_surface rfl)) fun _ => ?_
  exact .ite (fun _ => hlog.trans (.of_surface rfl)) fun _ => hlog

theorem frame_callHooks (now : ℤ) : Frame C K s (s.callHooks e now) := by
  have h₀ : Frame C K s { s with
      pushes := [], polls := [], scanDue := false, pairEvent := none, msgs :=
          [], notify := false } :=
    .of_surface rfl
  have h₁ := h₀.trans (frame_logAll C _ (l := s.pushes.map .sendKey) fun o ho => by
    obtain ⟨q, -, rfl⟩ := mem_map.mp ho
    exact .sendKey q)
  have h₂ := h₁.trans (.foldl (fun t p => t.frame_askTag C e now p) s.polls _)
  refine h₂.trans (frame_logAll C _ fun o ho => ?_)
  rcases mem_append.mp ho with ho | ho
  · rcases mem_append.mp ho with ho | ho
    · rcases mem_append.mp ho with ho | ho
      · split at ho
        · rw [mem_singleton.mp ho]
          exact .scan _
        · exact absurd ho (by simp)
      · obtain ⟨v, -, rfl⟩ := mem_map.mp ho
        exact .paired v
    · obtain ⟨m, -, rfl⟩ := mem_map.mp ho
      exact .message m
  · split at ho
    · rw [mem_singleton.mp ho]
      exact .changed
    · exact absurd ho (by simp)

theorem frame_sendGive (now : ℤ) (hk : Kind.give ∈ K) : Frame C K s (s.sendGive now) := by
  unfold sendGive
  refine .ite (fun _ => ?_) fun _ => .refl s
  have hsent : Frame C K s
      { s.sendPkt (giveBytes s.givePkt) with giveAt := now, giveLeft := s.giveLeft - 1 } :=
    (s.frame_sendPkt C hk (.give s.givePkt)).trans (.of_surface rfl)
  exact .ite (fun _ => hsent.trans (.of_surface rfl)) fun _ => hsent

theorem frame_tickOwn (now : ℤ) : Frame C K s (s.tickOwn e now) := by
  have h₁ := s.frame_kioskSync C e (K := K) now
  have h₂ := h₁.trans (frame_kioskCopy C _ now)
  have h₃ := (h₂.trans (frame_sendCopy C _ 0 now)).trans (frame_sendCopy C _ 1 now)
  have h₄ := h₃.trans (frame_endRound C _ now)
  have h₅ := h₄.trans (frame_takeDirty C _ now)
  exact h₅.trans (frame_saveRounds C _ now)

theorem found_eq (now : ℤ) (hnet : s.inNet = true) : s.found C e now = s := by
  rw [found, if_neg]
  rintro ⟨h, -⟩
  rw [hnet] at h
  exact absurd h (by simp)

theorem frame_tickNet (now : ℤ) (hnet : s.inNet = true) (hk : {Kind.beacon, Kind.give} ⊆ K) :
    Frame C K s (s.tickNet C e now) := by
  have h₁ := s.frame_pushAll C e now (hk (by simp : Kind.give ∈ _))
  have h₂ := h₁.trans (frame_beaconDue C e _ now (h₁.inNet.trans hnet) (hk (by simp)))
  have h₃ := h₂.trans (frame_scanTag C _ now)
  exact h₃.trans (frame_pollAll C _ now)

/-- The packets a turn of the loop sends in a network. -/
def loopKinds : Set Kind := {.beacon, .give, .pair}

/-- What follows the network's part of a turn. -/
theorem frame_tickEnd (now : ℤ) (hk : {Kind.give, Kind.pair} ⊆ K) :
    Frame C K s ((((s.pairing C e now).sendGive now).reportPeers now).callHooks e now) := by
  have h₁ := s.frame_pairing C e now (hk (by simp : Kind.pair ∈ _))
  have h₂ := h₁.trans (frame_sendGive C _ now (hk (by simp)))
  have h₃ := h₂.trans (frame_reportPeers C _ now)
  exact h₃.trans (frame_callHooks C e _ now)

/-- **A turn of the loop in a network** leaves core, peers, claims and round alone. -/
theorem frame_tick (hnet : s.inNet = true) : Frame C loopKinds s (s.tick C e) := by
  have h₁ := s.frame_tickOwn C e (K := loopKinds) e.now.1
  have hfound := found_eq C e (s.tickOwn e e.now.1) e.now.1 (h₁.inNet.trans hnet)
  have h₂ := h₁.trans (frame_tickNet C e _ e.now.1 (h₁.inNet.trans hnet) (by
    rintro k (rfl | rfl) <;> simp [loopKinds]))
  unfold tick
  simp only
  rw [hfound]
  refine h₂.trans (frame_tickEnd C e _ e.now.1 ?_)
  rintro k (rfl | rfl) <;> simp [loopKinds]

end St

end Hassmic.Arb
