import Hassmic.Lib.Runs
import Hassmic.Arb.Moves

/-!
# What is kept of the rounds

The members a round asks are noted when it opens, and each of them gets an observation when it is
over.  Nothing else an Echo does touches that note or the observations kept; the samples of the
window come from claims heard, so they lie between none and the time a round samples.

## Main definitions

* `Given`, `Given.enter` — an observation, and the table of rivals with it.
* `St.ledger` — the round's members and the rivals' table.
* `Sampled` — the samples lie in the time a round samples.
* `Apart` — a step that leaves the ledger alone and samples what it may.
* `St.closing` — when a step ends the round, and up to which time claims count for it.

## Main results

* `rivals_rivalsTake` — a round that is over gives one observation for each member it asked.
* `apart_step`, `apart_tick`, `arbClaim_ledger` — what each step does to the ledger.
-/

namespace Hassmic.Arb

open List Function

/-! ### Observations -/

/-- An observation of a member: our score, and its claim against it. -/
structure Given where
  id : Blob 8
  own : Int32
  d : Int32
  at_ : ℤ

/-- The table of rivals with an observation entered. -/
def Given.enter (r : Fin nPeer → Rival) (g : Given) : Fin nPeer → Rival :=
  let s : St := { rivals := r }
  ((s.rival g.id).2.observe (s.rival g.id).1 g.own g.d g.at_).rivals

/-- The time of a wake word. -/
def Ev.wake : Ev → Option ℤ
  | .claim _ _ _ now _ => some now.1
  | _ => none

namespace St

variable (C : Crypto) (e : Turn) (s : St)

/-- The observations a round gives that is over: claims up to `cutoff` count. -/
def given (cutoff : ℤ) : List Given :=
  s.round.want.map fun w => ⟨w.id, s.round.score, s.difference w.id cutoff, cutoff⟩

theorem enter_rivals (g : Given) :
    ((s.rival g.id).2.observe (s.rival g.id).1 g.own g.d g.at_).rivals = g.enter s.rivals := by
  have hfind : ({ rivals := s.rivals } : St).rivalFind g.id = s.rivalFind g.id := rfl
  have hreuse : ({ rivals := s.rivals } : St).rivalReuse = s.rivalReuse := rfl
  unfold Given.enter rival
  dsimp only
  rw [hfind, hreuse]
  cases s.rivalFind g.id with
  | none => rfl
  | some i => rfl

theorem rivals_takeRival (cutoff : ℤ) (l : List Want) (t : St) :
    (l.foldl (s.takeRival cutoff) t).rivals =
      (l.map fun w => ⟨w.id, s.round.score, s.difference w.id cutoff, cutoff⟩ : List Given).foldl
        Given.enter t.rivals := by
  induction l generalizing t with
  | nil => rfl
  | cons w l ih =>
    rw [foldl_cons, map_cons, foldl_cons, ih]
    refine congrArg (fun r => List.foldl Given.enter r _) ?_
    exact t.enter_rivals ⟨w.id, s.round.score, s.difference w.id cutoff, cutoff⟩

/-- **A round that is over gives one observation for each member it asked.** -/
theorem rivals_rivalsTake (cutoff : ℤ) :
    (s.rivalsTake cutoff).rivals = (s.given cutoff).foldl Given.enter s.rivals :=
  s.rivals_takeRival cutoff s.round.want s

/-! ### The ledger -/

/-- What a round is, for the rivals: whether it samples, whom it asked, our score, and the table. -/
structure Ledger where
  open_ : Bool
  want : List Want
  score : Int32
  rivals : Fin nPeer → Rival

def ledger : Ledger := ⟨s.round.open_, s.round.want, s.round.score, s.rivals⟩

end St

/-- **The samples lie in the time a round samples**, or are withdrawn. -/
def Sampled (s : St) : Prop :=
  ∀ j, (s.delays j).ms = -1 ∨ 0 ≤ (s.delays j).ms.toInt ∧ (s.delays j).ms.toInt ≤ measureMs

/-- **What a member claims in the round is kept in one place.** -/
def Once (s : St) : Prop := (s.round.heard.map (·.id)).Nodup

/-- **A step that leaves the ledger alone**, samples what it may and keeps claims together. -/
structure Apart (s t : St) : Prop where
  ledger : t.ledger = s.ledger
  sampled : Sampled s → Sampled t
  once : Once s → Once t
  kid : t.kid = s.kid

namespace Apart

variable {s t u : St}

theorem of_eq (h : (t.ledger, t.delays, t.round.heard, t.kid) =
    (s.ledger, s.delays, s.round.heard, s.kid)) : Apart s t := by
  obtain ⟨hledger, hrest⟩ := Prod.mk.inj h
  obtain ⟨hdelays, hrest⟩ := Prod.mk.inj hrest
  obtain ⟨hheard, hkid⟩ := Prod.mk.inj hrest
  refine ⟨hledger, fun hs => ?_, fun hs => ?_, hkid⟩
  · unfold Sampled
    rw [hdelays]
    exact hs
  · unfold Once
    rw [hheard]
    exact hs

theorem refl (s : St) : Apart s s := of_eq rfl

theorem trans (h₁ : Apart s t) (h₂ : Apart t u) : Apart s u :=
  ⟨h₂.ledger.trans h₁.ledger, fun hs => h₂.sampled (h₁.sampled hs), fun hs => h₂.once (h₁.once hs),
    h₂.kid.trans h₁.kid⟩

theorem ite {p : Prop} [Decidable p] (h₁ : p → Apart s t) (h₂ : ¬ p → Apart s u) :
    Apart s (if p then t else u) := by
  split
  · next h => exact h₁ h
  · next h => exact h₂ h

theorem foldl {α : Type*} {f : St → α → St} (hf : ∀ t a, Apart t (f t a)) (l : List α) (s : St) :
    Apart s (l.foldl f s) := by
  induction l generalizing s with
  | nil => exact refl s
  | cons a l ih => exact (hf s a).trans (ih (f s a))

end Apart

namespace St

variable (C : Crypto) (e : Turn) (s : St)

/-! ### Packets -/

theorem apart_nextCtr : Apart s s.nextCtr := by
  unfold nextCtr
  exact .ite (fun _ => .of_eq rfl) fun _ => .of_eq rfl

theorem apart_sendSpread (b : Bytes) (now : ℤ) : Apart s (s.sendSpread b now) := .of_eq rfl

theorem apart_beacon (answer : Bool) (now : ℤ) : Apart s (s.beacon C answer now) := by
  unfold beacon
  exact .ite (fun _ => s.apart_nextCtr.trans (.of_eq rfl)) fun _ => .of_eq rfl

theorem apart_peer (id : Blob 8) : Apart s (s.peer id) := by
  unfold peer
  exact .ite (fun _ => .refl s) fun _ => .of_eq rfl

theorem apart_fresh (id : Blob 8) (c : UInt64) (now : ℤ) : Apart s (s.fresh id c now).2 := by
  unfold fresh
  dsimp only
  split
  · refine (s.apart_peer id).trans ?_
    split
    · exact .of_eq rfl
    · exact .of_eq rfl
  · exact (s.apart_peer id).trans (.of_eq rfl)

theorem apart_adopt (k : Blob 32) (id : UInt64) (now : ℤ) :
    Apart s (s.adopt C k id now) := .of_eq rfl

theorem apart_takeKey (id : UInt64) (blob : Blob blobLen) (now : ℤ) :
    Apart s (s.takeKey C id blob now).2 := by
  unfold takeKey
  split
  · exact .refl s
  · split
    · exact .refl s
    · split
      · exact .refl s
      · next k _ =>
        have hadopt := s.apart_adopt C k id now
        exact .ite (fun _ => hadopt.trans (.of_eq rfl)) fun _ => hadopt

theorem apart_push (i : Fin nPeer) (now : ℤ) (nonce : Blob 24) :
    Apart s (s.push C i now nonce) := by
  unfold push
  dsimp only
  refine .ite (fun _ => .refl s) fun _ =>
      .ite (fun _ => .ite (fun _ => .refl s) fun _ => ?_) fun _ =>
    .ite (fun _ => .refl s) fun _ => ?_
  · split
    · exact .refl s
    · exact .of_eq rfl
  · split
    · exact .refl s
    · exact .of_eq rfl

theorem apart_notePeer (id : Blob 8) (nd : Node) (ip : UInt32) (flags : UInt8) :
    Apart s (s.notePeer id nd ip flags) := (s.apart_peer id).trans (.of_eq rfl)

theorem apart_onMember (b : BeaconPkt) (c : UInt64) (flags : UInt8) (now : ℤ) (ip : UInt32) :
    Apart s (s.onMember C b c flags now ip) := by
  have hdrop : Apart s (s.dropCand b.pub) := .of_eq rfl
  have hfresh := hdrop.trans ((s.dropCand b.pub).apart_fresh (b.pub.first 8 (by omega)) c now)
  unfold onMember
  dsimp only
  refine .ite (fun _ => ?_) fun _ => hfresh
  have hnote := hfresh.trans (apart_notePeer _ (b.pub.first 8 (by omega)) b.nd ip flags)
  exact .ite (fun _ => hnote.trans (apart_beacon C _ true now)) fun _ => hnote

theorem apart_speedUp (now : ℤ) : Apart s (s.speedUp now) := by
  unfold speedUp
  exact .ite (fun _ => .refl s) fun _ => .of_eq rfl

theorem apart_onOutsider (b : BeaconPkt) (now : ℤ) (ip : UInt32) (nonce : Blob 24) :
    Apart s (s.onOutsider C b now ip nonce) := by
  have hset : ∀ c : Cand, Apart s ((if (s.cand b.pub).first = 0 then s.speedUp now else s).setCand
      (s.candSlot b.pub) c) := fun c =>
    (Apart.ite (fun _ => s.apart_speedUp now) fun _ => .refl s).trans (.of_eq rfl)
  have hanswer : ∀ u : St, Apart s u → Apart s ({ u with answerAt := now }.beacon C true now) :=
    fun u hu => by
      have hat : Apart s { u with answerAt := now } := hu.trans (.of_eq rfl)
      exact hat.trans (apart_beacon C _ true now)
  unfold onOutsider
  dsimp only
  refine Apart.trans ?_ (apart_push C _ _ now nonce)
  exact .ite (fun _ => hanswer _ (hset _)) fun _ => hset _

theorem apart_onBeacon (p l : Bytes) (now : ℤ) (ip : UInt32) (nonce : Blob 24) :
    Apart s (s.onBeacon C p l now ip nonce) := by
  unfold onBeacon
  split
  · exact .refl s
  · refine .ite (fun _ => .refl s) fun _ => .ite (fun _ => ?_) fun _ =>
      s.apart_onOutsider C _ now ip nonce
    split
    · exact .refl s
    · exact .ite (fun _ => s.apart_onMember C _ _ _ now ip) fun _ => .refl s

theorem apart_onPair (l : Bytes) (now : ℤ) : Apart s (s.onPair l now) := by
  unfold onPair
  split
  · exact .refl s
  · exact .ite (fun _ => .refl s) fun _ => .of_eq rfl

theorem apart_onGive (l : Bytes) (now : ℤ) : Apart s (s.onGive C l now) := by
  unfold onGive
  split
  · exact .refl s
  · refine .ite (fun _ => .refl s) fun _ => .ite (fun _ => s.apart_takeKey C _ _ now) fun _ => ?_
    split
    · exact .refl s
    · exact .ite (fun _ => s.apart_takeKey C _ _ now) fun _ => .refl s

theorem apart_onMsg (p l : Bytes) (now : ℤ) (ip : UInt32) : Apart s (s.onMsg C p l now ip) := by
  unfold onMsg
  split
  · exact .refl s
  · next m _ =>
    have hfresh := s.apart_fresh m.from_ m.c now
    refine .ite (fun _ => .refl s) fun _ => .ite (fun _ => hfresh) fun _ => ?_
    exact (hfresh.trans (apart_peer _ m.from_)).trans (.of_eq rfl)

/-- A claim joins those of its member, or is the member's first. -/
theorem apart_heard (id : Blob 8) (at_ : ℤ) (score : Int32) (prio : UInt8) (won : Bool) :
    Apart s (s.heard id at_ score prio won) := by
  unfold heard
  dsimp only
  refine .ite (fun _ => ⟨rfl, fun hs => hs, fun hs => ?_, rfl⟩) fun hnew =>
    .ite (fun _ => ⟨rfl, fun hs => hs, fun hs => ?_, rfl⟩) fun _ => .refl s
  · unfold Once
    dsimp only
    rw [map_map]
    have hids : (fun x : Heard => x.id) ∘ (fun x : Heard =>
        if x.id = id then
          { x with
            s := if x.s < score then score else x.s
            p := if x.p < prio then prio else x.p
            w := x.w || won }
        else x) = (·.id) := by
      funext x
      simp only [comp_apply]
      split
      · rfl
      · rfl
    rw [hids]
    exact hs
  · unfold Once
    dsimp only
    rw [map_append, map_singleton, nodup_append_comm, singleton_append,
      nodup_cons]
    refine ⟨fun hmem => hnew ?_, hs⟩
    obtain ⟨x, hx, hid⟩ := mem_map.mp hmem
    exact any_eq_true.mpr ⟨x, hx, beq_iff_eq.mpr hid⟩

/-- A sample is as late as the claim, and none when it came before ours. -/
theorem apart_sample (id : Blob 8) {ms : ℤ} (hms : ms ≤ measureMs) (at_ : ℤ) :
    Apart s (s.sample id ms at_) := by
  unfold sample
  refine .ite (fun _ => .refl s) fun _ => ⟨rfl, fun hs j => ?_, fun hs => hs, rfl⟩
  dsimp only
  by_cases hj : j = Fin.ofNat nDelay s.ndelay
  · rw [hj, update_self]
    right
    dsimp only
    have hmeasure : measureMs = 1500 := rfl
    split
    · decide
    · next hpos =>
      rw [Int32.toInt_ofInt_of_le (by omega) (by omega)]
      omega
  · rw [update_of_ne hj]
    exact hs j

theorem apart_keepClaim (k : Claim) : Apart s (s.keepClaim k) := by
  unfold keepClaim
  dsimp only
  refine .ite (fun h => ?_) fun _ => .of_eq rfl
  have hkeep : Apart s ({ s with
      claims := update s.claims (Fin.ofNat nClaim s.claimNext) k
      claimNext := s.claimNext + 1 }.log (.kept k)) := .of_eq rfl
  have hheard := hkeep.trans (apart_heard _ k.id k.at_ k.score k.prio k.won)
  exact .ite (fun _ => hheard) fun _ => hheard.trans (apart_sample _ k.id h.2.2 k.at_)

theorem apart_onClaim (p l : Bytes) (now : ℤ) : Apart s (s.onClaim C p l now) := by
  unfold onClaim
  split
  · exact .refl s
  · next q _ =>
    have hfresh := s.apart_fresh q.id q.c now
    refine .ite (fun _ => .refl s) fun _ => .ite (fun _ => ?_) fun _ => hfresh
    exact hfresh.trans (apart_keepClaim _ _)

theorem apart_onPacket (p : Bytes) (now : ℤ) (ip : UInt32) (nonce : Blob 24) :
    Apart s (s.onPacket C p now ip nonce) := by
  unfold onPacket
  split
  · exact .refl s
  · exact .ite (fun _ => s.apart_onBeacon C _ _ now ip nonce) fun _ =>
      .ite (fun _ => s.apart_onPair _ now) fun _ => .ite (fun _ => s.apart_onGive C _ now) fun _ =>
      .ite (fun _ => s.apart_onMsg C _ _ now ip) fun _ =>
      .ite (fun _ => s.apart_onClaim C _ _ now) fun _ => .refl s

/-! ### The loop -/

theorem apart_kioskSend : Apart s s.kioskSend := by
  unfold kioskSend
  exact .ite (fun _ => .of_eq rfl) fun _ => .refl s

theorem apart_takeDirty (now : ℤ) : Apart s (s.takeDirty now) := by
  unfold takeDirty
  exact .ite (fun _ => .ite (fun _ => .of_eq rfl) fun _ => .of_eq rfl) fun _ => .refl s

theorem apart_saveRounds (now : ℤ) : Apart s (s.saveRounds now) := by
  unfold saveRounds
  exact .ite (fun _ => .of_eq rfl) fun _ => .refl s

theorem apart_found (now : ℤ) : Apart s (s.found C e now) := by
  unfold found
  exact .ite (fun _ => s.apart_adopt C _ _ now) fun _ => .refl s

theorem apart_pollOne (i : Fin nPeer) (now : ℤ) : Apart s (s.pollOne i now) := by
  unfold pollOne
  refine .ite (fun _ => ?_) fun _ => .refl s
  unfold pollTag
  exact .ite (fun _ => .of_eq rfl) fun _ => .of_eq rfl

theorem apart_scanTag (now : ℤ) : Apart s (s.scanTag now) := by
  unfold scanTag
  exact .ite (fun _ => .of_eq rfl) fun _ => .ite (fun _ => .refl s) fun _ => .of_eq rfl

theorem apart_beaconDue (now : ℤ) : Apart s (s.beaconDue C e now) := by
  unfold beaconDue
  refine .ite (fun _ => .refl s) fun _ => ?_
  have hset : Apart s { s with
      beaconAt := now
      beaconGap := s.beaconMinMs + (e.rand.toNat : ℤ) %
        (s.beaconMaxMs - s.beaconMinMs) } := .of_eq rfl
  exact hset.trans (apart_beacon C _ false now)

theorem apart_pushAll (now : ℤ) : Apart s (s.pushAll C e now) :=
  .foldl (fun t i => .ite (fun _ => t.apart_push C i now _) fun _ => .refl t) _ _

theorem apart_tickNet (now : ℤ) : Apart s (s.tickNet C e now) := by
  have hpush := s.apart_pushAll C e now
  have hbeacon := hpush.trans (apart_beaconDue C e _ now)
  have hscan := hbeacon.trans (apart_scanTag _ now)
  exact hscan.trans (.foldl (fun t i => t.apart_pollOne i now) _ _)

theorem apart_handOver : Apart s (s.handOver C e) := by
  unfold handOver
  refine .ite (fun _ => .refl s) fun _ => ?_
  split
  · exact .refl s
  · split
    · exact .refl s
    · exact .of_eq rfl
  · exact .of_eq rfl

theorem apart_pairing (now : ℤ) : Apart s (s.pairing C e now) := by
  have hend : Apart s (s.endPairing now) := by
    unfold endPairing
    exact .ite (fun _ => .of_eq rfl) fun _ => .refl s
  have hask : Apart s ((s.endPairing now).askPair now) := by
    unfold askPair
    exact .ite (fun _ => hend) fun _ => hend.trans (.of_eq rfl)
  unfold pairing
  exact .ite (fun _ => hend) fun _ =>
    .ite (fun _ => hask.trans (apart_handOver C e _)) fun _ => hask

theorem apart_sendGive (now : ℤ) : Apart s (s.sendGive now) := by
  unfold sendGive
  exact .ite (fun _ => .ite (fun _ => .of_eq rfl) fun _ => .of_eq rfl) fun _ => .refl s

theorem apart_reportPeers (now : ℤ) : Apart s (s.reportPeers now) := by
  unfold reportPeers
  exact .ite (fun _ => .of_eq rfl) fun _ => .refl s

theorem apart_askTag (now : ℤ) (entity : Bytes) : Apart s (s.askTag e now entity) := by
  unfold askTag
  exact .ite (fun _ => .of_eq rfl) fun _ => .ite (fun _ => .of_eq rfl) fun _ => .of_eq rfl

theorem apart_callHooks (now : ℤ) : Apart s (s.callHooks e now) := by
  have hclear : Apart s ({ s with
      pushes := [], polls := [], scanDue := false, pairEvent := none, msgs :=
        [], notify := false }.logAll
      (s.pushes.map .sendKey)) := .of_eq rfl
  have htags := hclear.trans (.foldl (fun t p => t.apart_askTag e now p) s.polls _)
  exact htags.trans (.of_eq rfl)

/-- What a turn does behind the end of the round. -/
theorem apart_tickRest (now : ℤ) :
    Apart s
      (((((((s.takeDirty now).saveRounds now).found C e now).tickNet C e now).pairing
        C e now).sendGive
      now |>.reportPeers now).callHooks e now) := by
  have hown := (s.apart_takeDirty now).trans (apart_saveRounds _ now)
  have hnet := (hown.trans (apart_found C e _ now)).trans (apart_tickNet C e _ now)
  have hpair := (hnet.trans (apart_pairing C e _ now)).trans (apart_sendGive _ now)
  exact (hpair.trans (apart_reportPeers _ now)).trans (apart_callHooks e _ now)

/-! ### The end of a round -/

/-- When the step ends the round, and up to which time the claims count for it. -/
def closing : Ev → Option ℤ
  | .claim _ _ _ now _ => if s.round.open_ then some ((s.round.at_ + now.1) / 2) else none
  | .tick e =>
      if s.round.open_ ∧ measureMs ≤ e.now.1 - s.round.at_ then some (s.round.at_ + measureMs)
      else none
  | _ => none

theorem open_of_closing {ev : Ev} {cutoff : ℤ} (h : s.closing ev = some cutoff) :
    s.round.open_ = true := by
  unfold closing at h
  split at h
  · split at h
    · next hopen => exact hopen
    · cases h
  · split at h
    · next hopen => exact hopen.1
    · cases h
  · cases h

/-- The ledger when the round is over. -/
def over_ (cutoff : ℤ) : Ledger :=
  ⟨false, [], s.round.score, (s.given cutoff).foldl Given.enter s.rivals⟩

/-- The ledger behind what may end the round. -/
def after : Option ℤ → Ledger
  | some cutoff => s.over_ cutoff
  | none => s.ledger

theorem delays_takeRival (cutoff : ℤ) (l : List Want) (t : St) :
    ((l.foldl (s.takeRival cutoff) t).delays, (l.foldl (s.takeRival cutoff) t).kid) =
      (t.delays, t.kid) := by
  have hrival : ∀ (u : St) (id : Blob 8), ((u.rival id).2.delays, (u.rival id).2.kid) =
      (u.delays, u.kid) := by
    intro u id
    unfold rival
    split
    · rfl
    · rfl
  induction l generalizing t with
  | nil => rfl
  | cons w l ih =>
    rw [foldl_cons, ih]
    exact hrival t w.id

/-- A round that no longer samples and is taken. -/
theorem over_rivalsTake (cutoff : ℤ) {t : St} (hround : t.round.want = s.round.want ∧
    t.round.heard = s.round.heard ∧ t.round.score = s.round.score ∧ t.round.prio = s.round.prio ∧
    t.round.won = s.round.won) (hrivals : t.rivals = s.rivals) :
    (t.rivalsTake cutoff).rivals = (s.over_ cutoff).rivals := by
  obtain ⟨hwant, hheard, hscore, hprio, hwon⟩ := hround
  have hgiven : t.given cutoff = s.given cutoff := by
    unfold given difference
    rw [hwant, hheard, hscore, hprio, hwon]
  rw [rivals_rivalsTake, hgiven, hrivals]
  rfl

/-- What neither a copy nor the kiosk port is about. -/
def aloof := (s.round, s.rivals, s.delays, s.kid)

/-- What a turn sends again is not the round's. -/
theorem aloof_copies (now : ℤ) :
    ((((s.kioskSync e now).kioskCopy now).sendCopy 0 now).sendCopy 1 now).aloof = s.aloof := by
  have hsync : (s.kioskSync e now).aloof = s.aloof := by
    unfold kioskSync
    dsimp only
    split
    · rfl
    · split
      · rfl
      · split
        · rfl
        · rfl
  have hsend : ∀ t : St, t.kioskSend.aloof = t.aloof := by
    intro t
    unfold kioskSend
    split
    · rfl
    · rfl
  have hkiosk : ∀ t : St, (t.kioskCopy now).aloof = t.aloof := by
    intro t
    unfold kioskCopy
    split
    · exact hsend t
    · rfl
  have hcopy : ∀ (t : St) (i : Fin 2), (t.sendCopy i now).aloof = t.aloof := by
    intro t i
    unfold sendCopy
    dsimp only
    split
    · rfl
    · rfl
  rw [hcopy, hcopy, hkiosk, hsync]

/-- **A turn of the loop** ends the round that samples no longer, and leaves the ledger alone
otherwise. -/
theorem tick_ledger (e : Turn) : (s.tick C e).ledger = s.after (s.closing (.tick e)) ∧
    (Sampled s → Sampled (s.tick C e)) ∧ (Once s → Once (s.tick C e)) ∧
    (s.tick C e).kid = s.kid := by
  have haloof := s.aloof_copies e e.now.1
  generalize hcopies :
    (((s.kioskSync e e.now.1).kioskCopy e.now.1).sendCopy 0 e.now.1).sendCopy 1
    e.now.1 = t at haloof
  have hround : t.round = s.round := congrArg (·.1) haloof
  have hrivals : t.rivals = s.rivals := congrArg (·.2.1) haloof
  have hdelays : t.delays = s.delays := congrArg (·.2.2.1) haloof
  have hkid : t.kid = s.kid := congrArg (·.2.2.2) haloof
  have hrest := (t.endRound e.now.1).apart_tickRest C e e.now.1
  have htick : s.tick C e =
      (((((((((t.endRound e.now.1).takeDirty e.now.1).saveRounds e.now.1).found C e
      e.now.1).tickNet C e e.now.1).pairing C e e.now.1).sendGive e.now.1).reportPeers
      e.now.1).callHooks
      e e.now.1) := by
    rw [← hcopies]
    rfl
  rw [← htick] at hrest
  have hend : (t.endRound e.now.1).ledger = s.after (s.closing (.tick e)) ∧
      (t.endRound e.now.1).delays = s.delays ∧ (Once s → Once (t.endRound e.now.1)) ∧
      (t.endRound e.now.1).kid = s.kid := by
    have hclosing : s.closing (.tick e) =
        if s.round.open_ ∧ measureMs ≤ e.now.1 - s.round.at_ then some (s.round.at_ + measureMs)
        else none := rfl
    unfold endRound
    rw [hclosing, hround]
    by_cases hover : s.round.open_ ∧ measureMs ≤ e.now.1 - s.round.at_
    · rw [if_pos hover, if_pos hover]
      obtain ⟨htaken, htold⟩ := Prod.mk.inj (delays_takeRival
        { t with round := { s.round with open_ := false } } (s.round.at_ + measureMs) s.round.want
        { t with round := { s.round with open_ := false } })
      refine ⟨?_, htaken.trans hdelays, fun _ => nodup_nil, htold.trans hkid⟩
      have hrivals := s.over_rivalsTake (s.round.at_ + measureMs)
        (t := { t with round := { s.round with open_ := false } }) ⟨rfl, rfl, rfl, rfl, rfl⟩ hrivals
      exact congrArg (Ledger.mk false [] s.round.score) hrivals
    · rw [if_neg hover, if_neg hover]
      refine ⟨?_, hdelays, ?_, hkid⟩
      · unfold after ledger
        rw [hround, hrivals]
      · unfold Once
        rw [hround]
        exact fun hs => hs
  refine ⟨hrest.ledger.trans hend.1, fun hs => hrest.sampled ?_, fun hs =>
    hrest.once (hend.2.2.1 hs), hrest.kid.trans hend.2.2.2⟩
  unfold Sampled
  rw [hend.2.1]
  exact hs

/-! ### The calls -/

theorem apart_arbKey (network key : Bytes) (now : ℤ) : Apart s (s.arbKey C network key now) := by
  unfold arbKey
  dsimp only
  split
  · exact .refl s
  · split
    · exact s.apart_takeKey C _ _ now
    · exact .refl s

theorem apart_arbHaState (entity state : Bytes) : Apart s (s.arbHaState entity state) := by
  unfold arbHaState
  refine .ite (fun _ => .refl s) fun _ => .foldl (fun t i => ?_) _ _
  unfold confirm
  exact .ite (fun _ => .refl t) fun _ => .ite (fun _ => .of_eq rfl) fun _ =>
    .ite (fun _ => .of_eq rfl) fun _ => .refl t

theorem apart_arbPair (now : ℤ) : Apart s (s.arbPair now) := by
  unfold arbPair
  exact .ite (fun _ => .refl s) fun _ => .of_eq rfl

theorem apart_claimPkt (score prio : Int32) (won : Bool) (now : ℤ) :
    Apart s (s.claimPkt C score prio won now) := s.apart_nextCtr.trans (apart_sendSpread _ _ now)

theorem apart_arbDecide (now : ℤ) : Apart s (s.arbDecide C now) := by
  have hset : Apart s (s.setDecided (!s.beaten)) := .of_eq rfl
  unfold arbDecide
  refine .ite (fun _ => .of_eq rfl) fun _ => ?_
  refine (Apart.ite (fun _ => ?_) fun _ => hset).trans (.of_eq rfl)
  exact hset.trans (apart_claimPkt C _ _ _ true now)

theorem apart_arbArbitrate (set : Bool) : Apart s (s.arbArbitrate set) := by
  unfold arbArbitrate
  exact .ite (fun _ => .refl s) fun _ => .of_eq rfl

theorem apart_arbMode (set : Mode) : Apart s (s.arbMode set) := by
  unfold arbMode
  exact .ite (fun _ => .refl s) fun _ => .of_eq rfl

theorem apart_arbTell (to_ : Blob 8) (p : Bytes) : Apart s (s.arbTell C to_ p) := by
  unfold arbTell
  exact .ite (fun _ => .refl s) fun _ => s.apart_nextCtr.trans (.of_eq rfl)

theorem apart_kioskClaim (keyword : Bytes) (score : Int32) (now : ℤ) (rand : UInt32) :
    Apart s (s.kioskClaim keyword score now rand).2 := by
  have hsend : ∀ (u : St) (n : ℕ) (at_ : ℤ),
      (u.ledger, u.delays, u.round.heard, u.kid) = (s.ledger, s.delays, s.round.heard, s.kid) →
      Apart s { u.kioskSend with kcopies := n, kcopyAt := at_ } := fun u n at_ hu =>
    ((Apart.of_eq hu).trans u.apart_kioskSend).trans (.of_eq rfl)
  unfold kioskClaim
  by_cases hround : !s.running ∨ !s.arbitrate ∨ !s.ksock ∨ kioskPhrase keyword = []
  · rw [if_pos hround]
    exact .refl s
  · rw [if_neg hround]
    dsimp only
    split
    · exact .of_eq rfl
    · exact hsend _ _ _ rfl

theorem apart_heardAll (now : ℤ) : Apart s (s.heardAll now) := by
  refine .foldl (fun t i => ?_) _ _
  unfold heardBefore
  refine .ite (fun _ => ?_) fun _ => .refl t
  have hheard := t.apart_heard (t.claims i).id (t.claims i).at_ (t.claims i).score (t.claims i).prio
    (t.claims i).won
  exact .ite (fun _ => hheard) fun _ => hheard.trans (apart_sample _ _ (by decide) _)

theorem apart_log (o : Out) : Apart s (s.log o) := .of_eq rfl

theorem apart_setDue (due : ℤ) : Apart s (s.setDue due) := .of_eq rfl

/-- What follows when the members are noted. -/
theorem apart_openRound (score prio : Int32) (now : ℤ) :
    Apart (s.askRound score prio now) (s.openRound C score prio now) := by
  have hheard := (s.askRound score prio now).apart_heardAll now
  have hclaim := hheard.trans (apart_claimPkt C _ score prio false now)
  unfold openRound
  exact hclaim.trans (apart_setDue _ _)

/-! ### A wake word -/

/-- The members counted. -/
def present (now : ℤ) : List (Blob 8) :=
  ((List.finRange nPeer).filter fun i =>
    ago (s.peers i).seen now s.peerTtlMs && !(s.peers i).quiet).map fun i => (s.peers i).id

theorem ids_wanted (now : ℤ) (score : Int32) :
    (s.wanted now score).map (·.id) = (s.present now).take (nPeer - s.round.want.length) := by
  unfold wanted present
  rw [map_take, map_map]
  rfl

theorem apart_withdraw (now : ℤ) (g : Got) : Apart s (s.withdraw now g) := by
  unfold withdraw
  refine .ite (fun _ => ⟨rfl, fun hs j => ?_, fun hs => hs, rfl⟩) fun _ => .refl s
  dsimp only
  by_cases hj : j = Fin.ofNat nDelay g.slot
  · rw [hj, update_self]
    exact .inl rfl
  · rw [update_of_ne hj]
    exact hs j

/-- Withdrawing samples leaves what was claimed in the round. -/
theorem round_withdraw (now : ℤ) (l : List Got) :
    ∀ u, u = l.foldl (fun (t : St) g => t.withdraw now g) s →
      (u.round.want = s.round.want ∧ u.round.heard = s.round.heard ∧ u.round.score = s.round.score ∧
        u.round.prio = s.round.prio ∧ u.round.won = s.round.won) ∧ u.rivals = s.rivals := by
  have hone : ∀ (t : St) (g : Got), (t.withdraw now g).round =
      { t.round with dirty := (t.withdraw now g).round.dirty } ∧
      (t.withdraw now g).rivals = t.rivals := by
    intro t g
    unfold withdraw
    split
    · exact ⟨rfl, rfl⟩
    · exact ⟨rfl, rfl⟩
  induction l generalizing s with
  | nil =>
    rintro u rfl
    exact ⟨⟨rfl, rfl, rfl, rfl, rfl⟩, rfl⟩
  | cons g l ih =>
    intro u hu
    obtain ⟨hround, hrivals⟩ := ih (s.withdraw now g) u hu
    rw [(hone s g).1, (hone s g).2] at *
    exact ⟨hround, hrivals⟩

/-- A wake word ends the round that still samples, and the next one asks nobody yet. -/
theorem begin_ledger (kw : Blob 8) (keyword : Bytes) (score prio : Int32) (now : Instant)
    (rand : UInt32) :
    ((s.closeRound now.1).beginRound kw now.1).ledger =
        { s.after (s.closing (.claim keyword score prio now rand)) with open_ := false } ∧
      (Sampled s → Sampled ((s.closeRound now.1).beginRound kw now.1)) ∧
      (Once s → Once ((s.closeRound now.1).beginRound kw now.1)) ∧
      ((s.closeRound now.1).beginRound kw now.1).kid = s.kid := by
  have hclosing : s.closing (.claim keyword score prio now rand) =
      if s.round.open_ then some ((s.round.at_ + now.1) / 2) else none := rfl
  rw [hclosing]
  by_cases hopen : s.round.open_ = true
  · have hclose : s.closeRound now.1 = (s.round.got.foldl (fun (t : St) g => t.withdraw now.1 g)
        s).rivalsTake ((s.round.at_ + now.1) / 2) := by
      unfold closeRound
      rw [if_pos hopen]
    rw [if_pos hopen, hclose]
    have hapart : Apart s (s.round.got.foldl (fun (t : St) g => t.withdraw now.1 g) s) :=
      .foldl (fun t g => t.apart_withdraw now.1 g) _ _
    obtain ⟨hround, hrivals⟩ := s.round_withdraw now.1 s.round.got _ rfl
    generalize s.round.got.foldl (fun (t : St) g => t.withdraw now.1 g) s =
      u at hapart hround hrivals
    obtain ⟨htaken, htold⟩ :=
      Prod.mk.inj (delays_takeRival u ((s.round.at_ + now.1) / 2) u.round.want u)
    refine ⟨?_, fun hs => ?_, fun _ => nodup_nil, htold.trans hapart.kid⟩
    · have hover := s.over_rivalsTake ((s.round.at_ + now.1) / 2) hround hrivals
      have hscore : ((u.rivalsTake ((s.round.at_ + now.1) / 2)).beginRound kw now.1).ledger =
          ⟨false, [], u.round.score, (u.rivalsTake ((s.round.at_ + now.1) / 2)).rivals⟩ := rfl
      rw [hscore, hover, hround.2.2.1]
      rfl
    · have hdelays :
          ((u.rivalsTake ((s.round.at_ + now.1) / 2)).beginRound kw now.1).delays = u.delays :=
        htaken
      have hu := hapart.sampled hs
      unfold Sampled
      rw [hdelays]
      exact hu
  · have hclose : s.closeRound now.1 = s := by
      unfold closeRound
      rw [if_neg hopen]
    rw [if_neg hopen, hclose]
    exact ⟨rfl, fun hs => hs, fun hs => hs, rfl⟩

/-- **A wake word** ends the last round, and asks the members counted when there is one to open. -/
theorem claim_ledger (keyword : Bytes) (score prio : Int32) (now : Instant) (rand : UInt32) :
    let t := s.arbClaim C keyword score prio now.1 rand
    let past := s.after (s.closing (.claim keyword score prio now rand))
    (t.ledger = { past with open_ := false } ∨
      ∃ w, w.map (·.id) = (s.present now.1).take (nPeer - past.want.length) ∧
        t.ledger = ⟨true, past.want ++ w, score, past.rivals⟩) ∧
      (Sampled s → Sampled t) ∧ (Once s → Once t) ∧ t.kid = s.kid := by
  intro t past
  obtain ⟨hledger, hsampled, honce, hkid⟩ := s.begin_ledger
    (C.blake2b8 ((keyword.take 64).map toLower)) keyword score prio now rand
  have hframe : Frame C (∅ : Set Kind) s (s.closeRound now.1) := s.frame_closeRound C now.1
  have hpresent : ((s.closeRound now.1).beginRound (C.blake2b8 ((keyword.take 64).map toLower))
      now.1).present now.1 = s.present now.1 := by
    have hpeers : ((s.closeRound now.1).beginRound (C.blake2b8 ((keyword.take 64).map toLower))
        now.1).peers = s.peers := hframe.peers
    have hpace : ((s.closeRound now.1).beginRound (C.blake2b8 ((keyword.take 64).map toLower))
        now.1).pace = s.pace := congrArg Core.pace hframe.core
    unfold present peerTtlMs paced
    rw [hpeers, hpace]
  have ht : t = s.arbClaim C keyword score prio now.1 rand := rfl
  unfold arbClaim at ht
  dsimp only at ht
  generalize (s.closeRound now.1).beginRound (C.blake2b8 ((keyword.take 64).map toLower)) now.1 = u
    at ht hledger hsampled honce hkid hpresent
  have hquiet : ∀ v, Apart u v → (v.ledger = { past with open_ := false } ∨
      ∃ w, w.map (·.id) = (s.present now.1).take (nPeer - past.want.length) ∧
        v.ledger = ⟨true, past.want ++ w, score, past.rivals⟩) ∧
      (Sampled s → Sampled v) ∧ (Once s → Once v) ∧ v.kid = s.kid := fun v hv =>
    ⟨.inl (hv.ledger.trans hledger), fun hs => hv.sampled (hsampled hs), fun hs =>
      hv.once (honce hs), hv.kid.trans hkid⟩
  by_cases hkiosk : u.round.kiosk = true
  · rw [if_pos hkiosk] at ht
    rw [ht]
    exact hquiet _ ((u.apart_kioskClaim keyword score now.1 rand).trans (.of_eq rfl))
  · rw [if_neg hkiosk] at ht
    by_cases hround : u.running ∧ u.arbitrate ∧ u.inNet ∧ u.countPeers now.1 ≠ 0
    · rw [if_pos hround] at ht
      -- the members are noted; what follows leaves the note alone
      have hopen : Apart (u.askRound score prio now.1) t := by
        rw [ht]
        exact (u.apart_openRound C score prio now.1).trans (apart_log _ _)
      refine ⟨.inr ⟨u.wanted now.1 score, ?_, ?_⟩, fun hs => hopen.sampled (hsampled hs),
        fun hs => hopen.once (honce hs), hopen.kid.trans hkid⟩
      · have hwant : u.round.want = past.want := congrArg Ledger.want hledger
        rw [ids_wanted, hpresent, hwant]
      · rw [hopen.ledger]
        have hwant : u.round.want = past.want := congrArg Ledger.want hledger
        have hrivals : u.rivals = past.rivals := congrArg Ledger.rivals hledger
        rw [← hwant, ← hrivals]
        rfl
    · rw [if_neg hround] at ht
      rw [ht]
      exact hquiet _ (.of_eq rfl)

/-! ### Every step -/

/-- **What a step does to the ledger**: it ends the round or leaves it alone, and a wake word may
open one. -/
theorem step_ledger (ev : Ev) :
    (ev.wake = none ∧ (s.step C ev).ledger = s.after (s.closing ev) ∨ ∃ keyword score prio now rand,
      ev = .claim keyword score prio now rand ∧
        ((s.step C ev).ledger = { s.after (s.closing ev) with open_ := false } ∨
          ∃ w, w.map (·.id) = (s.present now.1).take
          (nPeer - (s.after (s.closing ev)).want.length) ∧
            (s.step C ev).ledger =
              ⟨true, (s.after (s.closing ev)).want ++ w, score, (s.after (s.closing ev)).rivals⟩)) ∧
      (Sampled s → Sampled (s.step C ev)) ∧ (Once s → Once (s.step C ev)) ∧
      (s.step C ev).kid = s.kid := by
  have hapart : ∀ t, Apart s t →
      (t.ledger = s.ledger) ∧ (Sampled s → Sampled t) ∧ (Once s → Once t) ∧ t.kid = s.kid :=
    fun t ht => ⟨ht.ledger, ht.sampled, ht.once, ht.kid⟩
  cases ev with
  | packet p now ip nonce =>
    have h := hapart _ (s.apart_onPacket C p now.1 ip nonce)
    exact ⟨.inl ⟨rfl, h.1⟩, h.2⟩
  | tick e =>
    have h := s.tick_ledger C e
    exact ⟨.inl ⟨rfl, h.1⟩, h.2⟩
  | key network key now =>
    have h := hapart _ (s.apart_arbKey C network key now.1)
    exact ⟨.inl ⟨rfl, h.1⟩, h.2⟩
  | haState entity state =>
    have h := hapart _ (s.apart_arbHaState entity state)
    exact ⟨.inl ⟨rfl, h.1⟩, h.2⟩
  | pair now =>
    have h := hapart _ (s.apart_arbPair now.1)
    exact ⟨.inl ⟨rfl, h.1⟩, h.2⟩
  -- only a claim writes the ledger
  | claim keyword score prio now rand =>
    have h := s.claim_ledger C keyword score prio now rand
    exact ⟨.inr ⟨keyword, score, prio, now, rand, rfl, h.1⟩, h.2⟩
  | decide now =>
    have h := hapart _ (s.apart_arbDecide C now.1)
    exact ⟨.inl ⟨rfl, h.1⟩, h.2⟩
  | arbitrate set =>
    have h := hapart _ (s.apart_arbArbitrate set)
    exact ⟨.inl ⟨rfl, h.1⟩, h.2⟩
  | mode set =>
    have h := hapart _ (s.apart_arbMode set)
    exact ⟨.inl ⟨rfl, h.1⟩, h.2⟩
  | offset set =>
    have h := hapart (s.arbOffset set) (.ite (fun _ => .of_eq rfl) fun _ => .refl s)
    exact ⟨.inl ⟨rfl, h.1⟩, h.2⟩
  | window set =>
    have h := hapart (s.arbWindow set) (.ite (fun _ => .of_eq rfl) fun _ => .refl s)
    exact ⟨.inl ⟨rfl, h.1⟩, h.2⟩
  | windowAuto set =>
    have h := hapart (s.arbWindowAuto set) (.ite (fun _ => .refl s) fun _ => .of_eq rfl)
    exact ⟨.inl ⟨rfl, h.1⟩, h.2⟩
  | tell to_ p =>
    have h := hapart _ (s.apart_arbTell C to_ p)
    exact ⟨.inl ⟨rfl, h.1⟩, h.2⟩

end St

end Hassmic.Arb
